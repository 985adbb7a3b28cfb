import SyntaxPack.Proofs.Exchange.Framing
import SyntaxPack.Proofs.Exchange.Slots
/-!
# SyntaxPack.Proofs.Exchange.Grown

Sections whose bytes have grown.

`Segment.Grows` lets bytes follow those of a substream, with both of its lengths
adjusted. `Judged` says how a decoding of such segments ends: as before if nothing has
grown, and otherwise with the error of the bytes that a substream has too many. It
carries over to sequences, so that a whole module is judged section by section.
-/

namespace SyntaxPack

/-- A segment, or a substream with more bytes, whose number `grown` allows for. -/
inductive Segment.Grows (grown : String → Nat → Prop) : Segment → Segment → Prop
  | plain (bytes : List UInt8) : Grows grown (.plain bytes) (.plain bytes)
  | framed (label : String) (body more : List UInt8)
      (hlt : more ≠ [] → (body ++ more).length < UInt32.size)
      (h : more ≠ [] → grown label more.length) :
      Grows grown (.framed label body) (.framed label (body ++ more))

theorem Segment.Grows.refl (grown : String → Nat → Prop) (segment : Segment) :
    segment.Grows grown segment := by
  cases segment with
  | plain bytes => exact .plain bytes
  | framed label body =>
      have hgrows : Grows grown (.framed label body) (.framed label (body ++ [])) :=
        .framed label body [] (fun hne => absurd rfl hne) fun hne => absurd rfl hne
      rwa [List.append_nil] at hgrows

/-- A substream that has grown is still short enough if it was. -/
theorem Segment.length_append_lt {body more : List UInt8} (hbody : body.length < UInt32.size)
    (hlt : more ≠ [] → (body ++ more).length < UInt32.size) :
    (body ++ more).length < UInt32.size := by
  by_cases hmore : more = []
  · rwa [hmore, List.append_nil]
  · exact hlt hmore

theorem Segment.Grows.length_le {grown : String → Nat → Prop} {segment segment' : Segment}
    (h : segment.Grows grown segment') : segment.bytes.length ≤ segment'.bytes.length := by
  cases h with
  | plain => exact Nat.le_refl _
  | framed => simp [Segment.bytes]

theorem Segment.length_unframe_le {grown : String → Nat → Prop} {segs segs' : List Segment}
    (h : List.Forall₂ (Grows grown) segs segs') :
    (unframe segs).length ≤ (unframe segs').length := by
  induction h with
  | nil => exact Nat.le_refl _
  | cons hseg _ ih =>
      have hle := hseg.length_le
      simp only [unframe_cons, List.length_append]
      omega

theorem exists_of_forall₂_append {α β : Type} {r : α → β → Prop} {xs ys : List α} {zs : List β}
    (h : List.Forall₂ r (xs ++ ys) zs) :
    ∃ xs' ys', zs = xs' ++ ys' ∧ List.Forall₂ r xs xs' ∧ List.Forall₂ r ys ys' := by
  induction xs generalizing zs with
  | nil => exact ⟨[], zs, rfl, .nil, h⟩
  | cons x xs ih =>
      rw [List.cons_append, List.forall₂_cons_left_iff] at h
      obtain ⟨z, zs, hxz, hrest, rfl⟩ := h
      obtain ⟨xs', ys', rfl, hxs, hys⟩ := ih hrest
      exact ⟨z :: xs', ys', rfl, .cons hxz hxs, hys⟩

namespace Module

open Segment

variable {α β γ : Type} {rel : ShapeId → ShapeId → Prop} {stream : Nat → List UInt8 → Prop}
  {grown : String → Nat → Prop} {segs segs' more more' : List Segment} {s s' t : DecodeState}

/-! ### Judging a run -/

/-- A run over segments `segs'` that have grown out of `segs` ends as `good` says if they
are the same, and else with the error of a substream that has grown. -/
def Judged (grown : String → Nat → Prop) (segs segs' : List Segment)
    (result : EStateM.Result Error DecodeState β) (good : β → DecodeState → Prop) : Prop :=
  (segs' = segs ∧ ∃ b t', result = .ok b t' ∧ good b t') ∨
    ∃ label n offset t', grown label n ∧
      result = .error (.decode (.trailingBytes label offset n)) t'

theorem Judged.bind {step : Decode β} {next : β → Decode γ} {good : β → DecodeState → Prop}
    {good' : γ → DecodeState → Prop} (h : Judged grown segs segs' (step s') good)
    (hnext : ∀ b t', good b t' → Judged grown more more' (next b t') good') :
    Judged grown (segs ++ more) (segs' ++ more') ((step >>= next) s') good' := by
  rcases h with ⟨rfl, b, t', hstep, hgood⟩ | ⟨label, n, offset, t', hgrown, hstep⟩
  · rw [run_bind_of_ok hstep]
    rcases hnext b t' hgood with ⟨rfl, hok⟩ | hrefused
    · exact .inl ⟨rfl, hok⟩
    · exact .inr hrefused
  · exact .inr ⟨label, n, offset, t', hgrown, run_bind_of_error hstep⟩

/-- A step that takes no segments does not change the judgement. -/
theorem Judged.bind_of_ok {step : Decode β} {next : β → Decode γ} {good : γ → DecodeState → Prop}
    {b : β} {t' : DecodeState} (h : step s' = .ok b t')
    (hnext : Judged grown segs segs' (next b t') good) :
    Judged grown segs segs' ((step >>= next) s') good := by
  rwa [run_bind_of_ok h]

/-- Nor does one that comes last, if it succeeds. -/
theorem Judged.bind_ok {step : Decode β} {next : β → Decode γ} {good : β → DecodeState → Prop}
    {good' : γ → DecodeState → Prop} (h : Judged grown segs segs' (step s') good)
    (hnext : ∀ b t', good b t' → ∃ c u, next b t' = .ok c u ∧ good' c u) :
    Judged grown segs segs' ((step >>= next) s') good' := by
  rcases h with ⟨hsegs, b, t', hstep, hgood⟩ | ⟨label, n, offset, t', hgrown, hstep⟩
  · rw [run_bind_of_ok hstep]
    exact .inl ⟨hsegs, hnext b t' hgood⟩
  · exact .inr ⟨label, n, offset, t', hgrown, run_bind_of_error hstep⟩

theorem Judged.imp {result : EStateM.Result Error DecodeState β} {good good' : β → DecodeState → Prop}
    (h : Judged grown segs segs' result good) (himp : ∀ b t', good b t' → good' b t') :
    Judged grown segs segs' result good' := by
  rcases h with ⟨hsegs, b, t', hok, hgood⟩ | hrefused
  · exact .inl ⟨hsegs, b, t', hok, himp b t' hgood⟩
  · exact .inr hrefused

/-! ### Phases -/

/-- The first decoding takes the segments `segs` from `s` to `t`, and whatever has grown in
them is judged by `step'`, from any state on a level with `s`. -/
def Phase (rel : ShapeId → ShapeId → Prop) (stream : Nat → List UInt8 → Prop) (good : β → Prop)
    (step' : Decode β) (s t : DecodeState) (segs : List Segment) : Prop :=
  ∀ (grown : String → Nat → Prop) (segs' : List Segment) (s' : DecodeState) (rest : List UInt8)
    (offset : Nat), Level rel stream s s' → List.Forall₂ (Grows grown) segs segs' →
    s'.input = ⟨unframe segs' ++ rest, offset⟩ →
    Judged grown segs segs' (step' s') fun b t' => good b ∧ Level rel stream t t' ∧
      t'.input = ⟨rest, offset + (unframe segs').length⟩

theorem phase_pure {good : β → Prop} {b : β} (hb : good b) :
    Phase rel stream good (pure b) s s [] := by
  intro grown segs' s' rest offset hs hsegs hinput
  rw [List.forall₂_nil_left_iff] at hsegs
  subst hsegs
  exact .inl ⟨rfl, b, s', rfl, hb, hs, hinput⟩

theorem Phase.bind {good : β → Prop} {good' : γ → Prop} {step : Decode β} {next : β → Decode γ}
    {u : DecodeState} (h : Phase rel stream good step s t segs)
    (hnext : ∀ b, good b → Phase rel stream good' (next b) t u more) :
    Phase rel stream good' (step >>= next) s u (segs ++ more) := by
  intro grown segs' s' rest offset hs hsegs hinput
  obtain ⟨segs', more', rfl, hsegs, hmore⟩ := exists_of_forall₂_append hsegs
  rw [unframe_append, List.append_assoc] at hinput
  refine (h grown segs' s' _ offset hs hsegs hinput).bind fun b t' hb => ?_
  obtain ⟨hgood, ht, htInput⟩ := hb
  refine (hnext b hgood grown more' t' rest _ ht hmore htInput).imp fun c u' hc => ?_
  obtain ⟨hgood', hu, huInput⟩ := hc
  refine ⟨hgood', hu, ?_⟩
  rw [huInput, unframe_append, List.length_append, Nat.add_assoc]

/-- A section is a phase. Its content takes the same bytes however many follow, and those
that follow are reported. -/
theorem phase_inSection (rel : ShapeId → ShapeId → Prop) (stream : Nat → List UInt8 → Prop)
    {label : String} {content : Decode α} {content' : Decode β} {a : α} (good : β → Prop)
    (hrun : Decode.inSection label content s = .ok a t)
    (hkeeps : ∀ u v, content u = .ok a v → v.input = u.input)
    (hcontent : ∀ (p : Pairing) (u u' v : DecodeState), p.rel = rel → p.stream = stream →
      p.Beside u u' → content u = .ok a v →
      ∃ b v', content' u' = .ok b v' ∧ good b ∧ p.Beside v v') :
    ∃ body, readFramed label s.input = .ok (.framed label body) t.input ∧
      Phase rel stream good (Decode.inSection label content') s t [.framed label body] := by
  obtain ⟨body, input, hread, hrun, hend⟩ := Decode.inSection_eq_ok.mp hrun
  obtain ⟨hframe, hbody, -⟩ := run_readFramed hread label
  have hinput : t.input = input := hkeeps _ t hrun
  refine ⟨body.unread, hinput ▸ hframe, fun grown segs' s' rest offset hs hsegs hinput' => ?_⟩
  obtain ⟨_, _, hgrows, hnil, rfl⟩ := List.forall₂_cons_left_iff.mp hsegs
  rw [List.forall₂_nil_left_iff] at hnil
  subst hnil
  cases hgrows with
  | framed _ _ more hlt hgrown =>
      rw [unframe_cons, unframe_nil, List.append_nil] at hinput' ⊢
      have hread' := run_substream_segment (length_append_lt hbody hlt) label rest offset
      rw [← hinput'] at hread'
      let p : Pairing := ⟨rel, input, ⟨rest, offset +
        (Segment.framed label (body.unread ++ more)).bytes.length⟩, (· = more), stream⟩
      have hbeside : p.Beside { s with input := input, source := { s.source with body := body } }
          { s' with
            input := p.file'
            source := { s'.source with body := ⟨body.unread ++ more, offset + 4⟩ } } :=
        ⟨⟨hs.streams, hs.present, hs.nodes, hs.shapeRefs⟩, rfl, rfl, more, rfl, rfl⟩
      obtain ⟨b, t', hrun', hgood, ht⟩ := hcontent p _ _ t rfl rfl hbeside hrun
      -- The content takes what it took before, so all that has been added is left behind it.
      have hleft : t'.source.body.unread = more := by
        obtain ⟨bytes, hbytes, hbody⟩ := ht.body
        have hnone : t.source.body.unread = [] := by
          simpa [Reader.expectEnd, Reader.isAtEnd] using hend
        rw [hbody, hnone, List.nil_append]
        exact hbytes
      by_cases hmore : more = []
      · refine .inl ⟨by rw [hmore, List.append_nil], b, t', Decode.inSection_eq_ok.mpr
          ⟨_, _, hread', hrun', ?_⟩, hgood, ht.toLevel, ht.input'⟩
        simp [Reader.expectEnd, Reader.isAtEnd, hleft, hmore]
      · refine .inr ⟨label, more.length, t'.source.body.offset, t', hgrown hmore, ?_⟩
        have hcheck : t'.source.body.expectEnd label =
            .error (.trailingBytes label t'.source.body.offset more.length) := by
          simp [Reader.expectEnd, Reader.isAtEnd, Reader.remaining, hleft, hmore]
        rw [Decode.inSection, run_bind_of_ok (Decode.fromInput_eq_ok.mpr ⟨_, hread', rfl⟩),
          run_bind_of_ok run_modify, run_bind_of_ok hrun', run_bind_of_ok run_get, hcheck]
        rfl

/-! ### Sections behind the streams -/

theorem ObjectSlots.Same.refl (slots : ObjectSlots) : slots.Same Eq slots where
  label := rfl
  shape := by
    cases slots.shape with
    | none => exact .none
    | some id => exact .some rfl
  first := rfl
  count := rfl

namespace DecodeInput

variable {input input' : DecodeInput}

theorem Alike.refl (input : DecodeInput) : Alike Eq input input where
  wire := rfl
  tags := List.forall₂_same.mpr fun tag _ => by
    cases tag with
    | builtin b => exact .builtin b
    | shape id => exact .shape rfl
  strings := rfl
  tables := List.forall₂_same.mpr fun slots _ => .refl slots
  firstArray := rfl
  arrayCount := rfl
  size := Nat.le_refl _
  biUnique := ⟨fun _ _ _ h h' => h.trans h'.symm, fun _ _ _ h h' => h.symm.trans h'⟩
  names := fun _ _ h => congrArg _ h
  fields := fun _ _ h _ => h ▸ List.forall₂_same.mpr fun _ _ => ⟨rfl, .refl (fun _ => rfl) _⟩

/-- A step that is parallel to itself leaves what is behind its section alone. -/
theorem input_eq_of_parallel {R : α → α → Prop} {step : Decode α} {a : α}
    (h : ∀ p : Pairing, p.rel = Eq → p.Parallel R step step) (hrun : step s = .ok a t) :
    t.input = s.input := by
  let p : Pairing := ⟨Eq, s.input, s.input, (· = []), fun _ => (· = [])⟩
  have hbeside : p.Beside s s := by
    refine ⟨⟨?_, fun _ _ hnone hsome => absurd hnone hsome, rfl,
      List.forall₂_same.mpr fun _ _ => ⟨rfl, rfl, rfl⟩⟩, rfl, rfl, [], rfl, by simp⟩
    cases s.source.streams with
    | none => exact .none
    | some map => exact .some (List.forall₂_same.mpr fun _ _ => ⟨rfl, [], rfl, by simp⟩)
  obtain ⟨_, _, _, _, ht⟩ := h p rfl s s t a hbeside hrun
  exact ht.input

/-- A section whose content is parallel to itself, and to that of the second decoding. -/
theorem phase_of_parallel (rel : ShapeId → ShapeId → Prop) (stream : Nat → List UInt8 → Prop)
    {label : String} {content : Decode α} {content' : Decode β} {a : α} {R : α → β → Prop}
    {S : α → α → Prop} (hrun : Decode.inSection label content s = .ok a t)
    (hself : ∀ p : Pairing, p.rel = Eq → p.Parallel S content content)
    (hother : ∀ p : Pairing, p.rel = rel → p.Parallel R content content') :
    ∃ body, readFramed label s.input = .ok (.framed label body) t.input ∧
      Phase rel stream (R a) (Decode.inSection label content') s t [.framed label body] :=
  phase_inSection rel stream (R a) hrun (fun _ _ => input_eq_of_parallel hself)
    fun p u u' v hrel _ hu => hother p hrel u u' v a hu

variable (h : Alike rel input input')
include h

theorem phase_tables (stream : Nat → List UInt8 → Prop) {tables tables' : List ObjectSlots}
    (htables : List.Forall₂ (ObjectSlots.Same rel) tables tables')
    (hrun : tables.forM (fun slots => Decode.inSection slots.label (input.readTable slots)) s =
      .ok ⟨⟩ t) :
    ∃ segs, (tables.map ObjectSlots.label).mapM readFramed s.input = .ok segs t.input ∧
      Phase rel stream (fun _ => True)
        (tables'.forM fun slots => Decode.inSection slots.label (input'.readTable slots))
        s t segs := by
  induction htables generalizing s with
  | nil =>
      rw [List.forM, run_pure_eq_ok] at hrun
      obtain ⟨-, rfl⟩ := hrun
      exact ⟨[], rfl, phase_pure trivial⟩
  | @cons slots slots' tables tables' hslots _ ih =>
      rw [List.forM, run_bind_eq_ok] at hrun
      obtain ⟨_, u, htable, hrest⟩ := hrun
      obtain ⟨body, hframe, hphase⟩ := phase_of_parallel rel stream htable
        (fun p hp => parallel_readTable (hp ▸ Alike.refl input) (hp ▸ .refl slots))
        (fun p hp => parallel_readTable (p := p) (hp ▸ h) (hp ▸ hslots))
      obtain ⟨segs, hframes, hphases⟩ := ih hrest
      refine ⟨.framed slots.label body :: segs, ?_, ?_⟩
      · rw [List.map_cons, List.mapM_cons, run_bind_of_ok hframe, run_bind_of_ok hframes]
        rfl
      · rw [List.forM, ← hslots.label]
        exact hphase.bind fun _ _ => hphases

end DecodeInput

end Module

end SyntaxPack
