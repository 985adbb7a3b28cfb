import SyntaxPack.Proofs.Decode.Slots
import SyntaxPack.Proofs.Exchange.Shapes
import SyntaxPack.Proofs.Local
/-!
# SyntaxPack.Proofs.Exchange.Parallel

Two decodings side by side.

The second one may know other registries than the first, and may have more bytes:
behind the section that is being read, and behind every value stream. `Pairing` says
which bytes those can be, and `Beside` that the two states agree up to them and up to
the positions of shapes. A step is `Parallel` to another one if the second succeeds
wherever the first does, and leaves the states side by side. What follows a section is
not looked at before its end, so every step within a section is parallel to itself.
-/

namespace SyntaxPack

/-! ### Readers with more bytes

A read that succeeds without looking past what it takes succeeds with more bytes behind it, too. Its
result may contain an offset, which `same` leaves out of the comparison. -/

/-- The second reader has all the bytes of the first one, and some of those in `more`
behind them. -/
def Reader.ExtendedBy (more : List UInt8 → Prop) (r r' : Reader) : Prop :=
  ∃ bytes, more bytes ∧ r'.unread = r.unread ++ bytes

namespace Read

variable {α : Type} {same : α → α → Prop}

/-- A successful run depends on nothing but the bytes that it takes, up to what `same`
lets differ. -/
def Steady (read : Read α) (same : α → α → Prop) : Prop :=
  ∀ (r : Reader) (a : α) (r' : Reader), read r = .ok a r' → ∃ used, r.unread = used ++ r'.unread ∧
    ∀ rest offset, ∃ b, read ⟨used ++ rest, offset⟩ = .ok b ⟨rest, offset + used.length⟩ ∧ same a b

theorem Local.steady {read : Read α} (h : read.Local) : read.Steady Eq := by
  intro r a r' hr
  obtain ⟨used, hused, htakes⟩ := h r a r' hr
  exact ⟨used, hused, fun rest offset => ⟨a, htakes rest offset, rfl⟩⟩

/-- The offset of an item is the only thing that depends on where it stands. -/
theorem Local.located {read : Read α} (h : read.Local) :
    (Module.DecodeInput.located read).Steady (·.2 = ·.2) := by
  intro r a r' hr
  obtain ⟨start, t, hstart, hr⟩ := run_bind_eq_ok.mp hr
  simp only [Read.offset, EStateM.Result.ok.injEq] at hstart
  obtain ⟨rfl, rfl⟩ := hstart
  obtain ⟨item, u, hread, hr⟩ := run_bind_eq_ok.mp hr
  obtain ⟨rfl, rfl⟩ := run_pure_eq_ok.mp hr
  obtain ⟨used, hused, htakes⟩ := h _ _ _ hread
  refine ⟨used, hused, fun rest offset => ⟨(offset, item), ?_, rfl⟩⟩
  rw [Module.DecodeInput.located, run_bind_of_ok run_offset, run_bind_of_ok (htakes rest offset)]
  rfl

/-- An item is read off an extended reader too. -/
theorem Steady.run_extended {read : Read α} (h : read.Steady same) {more : List UInt8 → Prop}
    {r r' t : Reader} {a : α} (hr : r.ExtendedBy more r') (hread : read r = .ok a t) :
    ∃ b t', read r' = .ok b t' ∧ same a b ∧ t.ExtendedBy more t' := by
  obtain ⟨bytes, hmore, hbytes⟩ := hr
  obtain ⟨used, hused, hrun⟩ := h r a t hread
  obtain ⟨b, hb, hsame⟩ := hrun (t.unread ++ bytes) r'.offset
  rw [← List.append_assoc, ← hused, ← hbytes] at hb
  exact ⟨b, _, hb, hsame, bytes, hmore, rfl⟩

end Read

namespace TagMap

variable {α β : Type} {R : Nat → α → β → Prop} {map : TagMap α} {map' : TagMap β}

/-- Maps with the same keys whose values are related. -/
def Related (R : Nat → α → β → Prop) : TagMap α → TagMap β → Prop :=
  List.Forall₂ fun p p' => p.1 = p'.1 ∧ R p.1 p.2 p'.2

theorem Related.find? (h : Related R map map') (key : Nat) :
    Option.Rel (R key) (map.find? key) (map'.find? key) := by
  induction h with
  | nil => exact .none
  | @cons p p' map map' hp _ ih =>
      obtain ⟨k, a⟩ := p
      obtain ⟨k', a'⟩ := p'
      obtain ⟨rfl, ha⟩ : k = k' ∧ R k a a' := hp
      simp only [TagMap.find?]
      split
      · rename_i hkey
        exact hkey ▸ .some ha
      · exact ih

theorem Related.find?_eq_none (h : Related R map map') {key : Nat} (hnone : map.find? key = none) :
    map'.find? key = none := by
  have hfind := h.find? key
  rw [hnone] at hfind
  generalize map'.find? key = found at hfind
  cases hfind
  rfl

theorem Related.insert (h : Related R map map') {key : Nat} {a : α} {b : β} (hab : R key a b) :
    Related R (map.insert key a) (map'.insert key b) := by
  induction h with
  | nil => exact .cons ⟨rfl, hab⟩ .nil
  | @cons p p' map map' hp hrest ih =>
      obtain ⟨k, c⟩ := p
      obtain ⟨k', c'⟩ := p'
      obtain ⟨rfl, hc⟩ : k = k' ∧ R k c c' := hp
      simp only [TagMap.insert]
      split
      · exact .cons ⟨rfl, hab⟩ (.cons ⟨rfl, hc⟩ hrest)
      · split
        · exact .cons ⟨rfl, hab⟩ hrest
        · exact .cons ⟨rfl, hc⟩ ih

end TagMap

namespace Module

/-! ### States side by side

`Level` compares what is kept from section to section, `Beside` adds the section that is being read.
Readers are equal up to what the second may have more, nodes are equal, and references to be checked
later ask for shapes that correspond. -/

/-- What two decodings have to do with each other. -/
structure Pairing where
  /-- Which positions of shapes stand for each other. -/
  rel : ShapeId → ShapeId → Prop
  /-- What follows the section of the first. -/
  file : Reader
  /-- What follows the section of the second. -/
  file' : Reader
  /-- What may follow the bytes of the first section in the second. -/
  body : List UInt8 → Prop
  /-- What may follow the bytes of a first value stream in the second. -/
  stream : Nat → List UInt8 → Prop

/-- References that lead to the same place and require the same shape. -/
def ShapeRef.Same (rel : ShapeId → ShapeId → Prop) (ref ref' : ShapeRef) : Prop :=
  ref.node = ref'.node ∧ rel ref.shape ref'.shape ∧ ref.index = ref'.index

/-- Two states have the same nodes and references, and the same value streams up to the
bytes that the second has more. Every stream that can have more is there. -/
structure Level (rel : ShapeId → ShapeId → Prop) (stream : Nat → List UInt8 → Prop)
    (s s' : DecodeState) : Prop where
  streams : Option.Rel (TagMap.Related fun key => Reader.ExtendedBy (stream key))
    s.source.streams s'.source.streams
  present : ∀ key bytes, stream key bytes → bytes ≠ [] →
    ((s.source.streams.getD []).find? key).isSome = true
  nodes : s.nodes = s'.nodes
  shapeRefs : List.Forall₂ (ShapeRef.Same rel) s.shapeRefs s'.shapeRefs

/-- Two states are in sections that agree up to the bytes that the second has more. -/
structure Pairing.Beside (p : Pairing) (s s' : DecodeState) : Prop
    extends Level p.rel p.stream s s' where
  input : s.input = p.file
  input' : s'.input = p.file'
  body : s.source.body.ExtendedBy p.body s'.source.body

/-- The tokens of a stream are read from places that correspond. -/
theorem Pairing.Beside.route {p : Pairing} {s s' : DecodeState} (hs : p.Beside s s') {stream : Nat}
    {reader : Reader} (hroute : s.source.route stream = .ok reader) :
    ∃ reader' more, s'.source.route stream = .ok reader' ∧ reader.ExtendedBy more reader' ∧
      ∀ rest rest' : Reader, rest.ExtendedBy more rest' →
        p.Beside { s with source := s.source.advance stream rest }
          { s' with source := s'.source.advance stream rest' } := by
  have hstreams := hs.streams
  have hpresent := hs.present
  simp only [StreamReader.route] at hroute
  simp only [StreamReader.route, StreamReader.advance]
  cases hmap : s.source.streams <;> cases hmap' : s'.source.streams <;>
    simp only [hmap, hmap', Option.rel_some_some, Option.not_rel_some_none,
      Option.not_rel_none_some] at hstreams hroute
  case none.none =>
    obtain rfl := Except.ok.inj hroute
    refine ⟨_, p.body, rfl, hs.body, fun rest rest' hrest => ?_⟩
    exact ⟨⟨.none, by simpa [hmap] using hpresent, hs.nodes, hs.shapeRefs⟩, hs.input, hs.input',
      hrest⟩
  case some.some map map' =>
    have hfind := hstreams.find? stream
    cases hfound : map.find? stream <;> cases hfound' : map'.find? stream <;>
      simp only [hfound, hfound', Option.rel_some_some, Option.not_rel_some_none,
        reduceCtorEq] at hfind hroute
    obtain rfl := Except.ok.inj hroute
    refine ⟨_, p.stream stream, by simp only [hfound'], hfind, fun rest rest' hrest => ?_⟩
    refine ⟨⟨.some (hstreams.insert hrest), fun key bytes hkey hbytes => ?_, hs.nodes, hs.shapeRefs⟩,
      hs.input, hs.input', hs.body⟩
    have hsome := hpresent key bytes hkey hbytes
    rw [hmap, Option.getD_some] at hsome
    rw [Option.getD_some, TagMap.find?_insert]
    split
    · rfl
    · exact hsome

/-- Where the first step succeeds the second one does, with a result that is related,
and the states stay side by side. -/
def Pairing.Parallel {α β : Type} (p : Pairing) (R : α → β → Prop) (step : Decode α)
    (step' : Decode β) : Prop :=
  ∀ (s s' t : DecodeState) (a : α), p.Beside s s' → step s = .ok a t →
    ∃ b t', step' s' = .ok b t' ∧ R a b ∧ p.Beside t t'

namespace Pairing

variable {α β γ δ : Type} {p : Pairing} {R : α → β → Prop} {S : γ → δ → Prop}

theorem Parallel.imp {R' : α → β → Prop} {step : Decode α} {step' : Decode β}
    (h : p.Parallel R step step') (himp : ∀ a b, R a b → R' a b) : p.Parallel R' step step' := by
  intro s s' t a hs hrun
  obtain ⟨b, t', hrun', hab, ht⟩ := h s s' t a hs hrun
  exact ⟨b, t', hrun', himp a b hab, ht⟩

theorem parallel_pure {a : α} {b : β} (h : R a b) : p.Parallel R (pure a) (pure b) := by
  intro s s' t a' hs hrun
  obtain ⟨rfl, rfl⟩ := run_pure_eq_ok.mp hrun
  exact ⟨b, s', rfl, h, hs⟩

/-- Nothing is said about a run whose first step fails. -/
theorem parallel_of_error {step : Decode α} {step' : Decode β}
    (h : ∀ s a t, step s ≠ .ok a t) : p.Parallel R step step' := by
  intro s s' t a hs hrun
  exact absurd hrun (h s a t)

theorem parallel_fail {error : DecodeError} {step' : Decode β} :
    p.Parallel R (Decode.fail error) step' :=
  parallel_of_error fun s a t h => by simp at h

theorem Parallel.bind {step : Decode α} {step' : Decode β} {next : α → Decode γ}
    {next' : β → Decode δ} (h : p.Parallel R step step')
    (hnext : ∀ a b, R a b → p.Parallel S (next a) (next' b)) :
    p.Parallel S (step >>= next) (step' >>= next') := by
  intro s s' t c hs hrun
  obtain ⟨a, u, hstep, hrest⟩ := run_bind_eq_ok.mp hrun
  obtain ⟨b, u', hstep', hab, hu⟩ := h s s' u a hs hstep
  obtain ⟨d, t', hrest', hcd, ht⟩ := hnext a b hab u u' t c hu hrest
  exact ⟨d, t', run_bind_eq_ok.mpr ⟨b, u', hstep', hrest'⟩, hcd, ht⟩

theorem parallel_ensure {q q' : Prop} [Decidable q] [Decidable q'] {error error' : Error}
    (h : q → q') : p.Parallel (fun _ _ => True) (Decode.ensure q error) (Decode.ensure q' error') := by
  intro s s' t a hs hrun
  obtain ⟨hq, rfl⟩ := Decode.ensure_eq_ok.mp hrun
  exact ⟨(), s', Decode.ensure_eq_ok.mpr ⟨h hq, rfl⟩, trivial, hs⟩

theorem parallel_require {found : Option α} {found' : Option β} {error error' : DecodeError}
    (h : Option.Rel R found found') :
    p.Parallel R (Decode.require found error) (Decode.require found' error') := by
  cases h with
  | none => exact parallel_fail
  | some h => exact parallel_pure h

/-! ### Repetition -/

/-- Every result that a repetition has gathered is among those that it returns. -/
theorem mem_of_go {step : Nat → Decode α} {more index : Nat} {results items : List α}
    {s t : DecodeState} (hrun : Decode.replicate.go step more index results s = .ok items t)
    {a : α} (ha : a ∈ results) : a ∈ items := by
  induction more generalizing index results s with
  | zero =>
      obtain ⟨rfl, rfl⟩ := run_pure_eq_ok.mp hrun
      exact List.mem_reverse.mpr ha
  | succ more ih =>
      obtain ⟨b, u, -, hrest⟩ := run_bind_eq_ok.mp hrun
      exact ih hrest (List.mem_cons_of_mem b ha)

/-- A repetition whose results are known to be as `P` says. -/
theorem run_replicate {P : α → Prop} {step : Nat → Decode α} {step' : Nat → Decode β}
    (hstep : ∀ i s s' t a, p.Beside s s' → step i s = .ok a t → P a →
      ∃ b t', step' i s' = .ok b t' ∧ R a b ∧ p.Beside t t')
    {count : Nat} {s s' t : DecodeState} {items : List α} (hs : p.Beside s s')
    (hrun : Decode.replicate count step s = .ok items t) (hP : ∀ a ∈ items, P a) :
    ∃ items' t', Decode.replicate count step' s' = .ok items' t' ∧ List.Forall₂ R items items' ∧
      p.Beside t t' := by
  suffices ∀ (more index : Nat) (results : List α) (results' : List β) (u u' : DecodeState),
      p.Beside u u' → List.Forall₂ R results results' →
      Decode.replicate.go step more index results u = .ok items t →
      ∃ items' t', Decode.replicate.go step' more index results' u' = .ok items' t' ∧
        List.Forall₂ R items items' ∧ p.Beside t t' from this count 0 [] [] s s' hs .nil hrun
  intro more
  induction more with
  | zero =>
      intro index results results' u u' hu hresults hrun
      obtain ⟨rfl, rfl⟩ := run_pure_eq_ok.mp hrun
      exact ⟨_, u', rfl, List.rel_reverse hresults, hu⟩
  | succ more ih =>
      intro index results results' u u' hu hresults hrun
      obtain ⟨a, v, ha, hrest⟩ := run_bind_eq_ok.mp hrun
      have hPa := hP a (mem_of_go hrest List.mem_cons_self)
      obtain ⟨b, v', hb, hab, hv⟩ := hstep index u u' v a hu ha hPa
      obtain ⟨items', t', hrest', hitems, ht⟩ := ih _ _ _ v v' hv (.cons hab hresults) hrest
      exact ⟨items', t', run_bind_eq_ok.mpr ⟨b, v', hb, hrest'⟩, hitems, ht⟩

theorem parallel_replicate {step : Nat → Decode α} {step' : Nat → Decode β}
    (h : ∀ i, p.Parallel R (step i) (step' i)) (count : Nat) :
    p.Parallel (List.Forall₂ R) (Decode.replicate count step) (Decode.replicate count step') := by
  intro s s' t items hs hrun
  exact run_replicate (P := fun _ => True) (fun i s s' t a hs hstep _ => h i s s' t a hs hstep) hs
    hrun fun _ _ => trivial

theorem parallel_mapM {step : α → Decode γ} {step' : β → Decode δ} {xs : List α} {ys : List β}
    (h : List.Forall₂ R xs ys) (hstep : ∀ x y, R x y → p.Parallel S (step x) (step' y)) :
    p.Parallel (List.Forall₂ S) (xs.mapM step) (ys.mapM step') := by
  induction h with
  | nil => exact parallel_pure .nil
  | cons hxy _ ih =>
      rw [List.mapM_cons, List.mapM_cons]
      exact (hstep _ _ hxy).bind fun a b hab => ih.bind fun as bs habs =>
        parallel_pure (.cons hab habs)

/-! ### Items

Items are read from a stream or from the section, and both have their counterpart on the other
side. -/

variable {same : α → α → Prop} {read : Read α}

theorem parallel_fromSection (h : read.Steady same) :
    p.Parallel same (Decode.fromSection read) (Decode.fromSection read) := by
  intro s s' t a hs hrun
  obtain ⟨rest, hread, rfl⟩ := Decode.fromSection_eq_ok.mp hrun
  obtain ⟨b, rest', hread', hsame, hrest⟩ := h.run_extended hs.body hread
  exact ⟨b, _, Decode.fromSection_eq_ok.mpr ⟨rest', hread', rfl⟩, hsame,
    ⟨⟨hs.streams, hs.present, hs.nodes, hs.shapeRefs⟩, hs.input, hs.input', hrest⟩⟩

theorem parallel_offset : p.Parallel (fun _ _ => True) Decode.offset Decode.offset :=
  parallel_fromSection fun r _ _ h => by
    simp only [Read.offset, EStateM.Result.ok.injEq] at h
    exact ⟨[], by rw [h.2, List.nil_append], fun rest offset => ⟨offset, rfl, trivial⟩⟩

/-- Both sides take an item from the same stream. -/
theorem parallel_fromStream (h : read.Steady same) (stream : Nat) :
    p.Parallel same (Decode.fromStream stream read) (Decode.fromStream stream read) := by
  intro s s' t a hs hrun
  obtain ⟨reader, rest, hroute, hread, rfl⟩ := Decode.fromStream_eq_ok.mp hrun
  obtain ⟨reader', more, hroute', hmore, hadvance⟩ := hs.route hroute
  obtain ⟨b, rest', hread', hsame, hrest⟩ := h.run_extended hmore hread
  exact ⟨b, _, Decode.fromStream_eq_ok.mpr ⟨reader', rest', hroute', hread', rfl⟩, hsame,
    hadvance rest rest' hrest⟩

theorem parallel_count (label : String) (expected : Nat) :
    p.Parallel (fun _ _ => True) (Decode.count label expected) (Decode.count label expected) :=
  (parallel_fromSection Read.local_nat32.steady).bind fun _ _ hfound =>
    parallel_ensure fun h => hfound ▸ h

/-! ### Nodes

The arena is the same on both sides, and stays so. -/

theorem parallel_setNode (position : Nat) (node : Node) :
    p.Parallel (fun _ _ => True) (setNode position node) (setNode position node) := by
  intro s s' t a hs hrun
  simp only [setNode, run_modify, EStateM.Result.ok.injEq, true_and] at hrun
  subst hrun
  exact ⟨_, _, rfl, trivial,
    ⟨⟨hs.streams, hs.present, by simp only [hs.nodes], hs.shapeRefs⟩, hs.input, hs.input', hs.body⟩⟩

theorem parallel_pushNode (node : Node) : p.Parallel Eq (pushNode node) (pushNode node) := by
  intro s s' t id hs hrun
  obtain ⟨rfl, rfl⟩ := DecodeInput.pushNode_eq_ok.mp hrun
  exact ⟨_, _, DecodeInput.pushNode_eq_ok.mpr ⟨rfl, rfl⟩, by rw [hs.nodes],
    ⟨⟨hs.streams, hs.present, by simp only [hs.nodes], hs.shapeRefs⟩, hs.input, hs.input', hs.body⟩⟩

end Pairing

end Module

end SyntaxPack
