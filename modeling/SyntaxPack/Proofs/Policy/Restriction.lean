import SyntaxPack.Proofs.Encode.Progress
import SyntaxPack.Proofs.Policy.Output
/-!
# SyntaxPack.Proofs.Policy.Restriction

What the switches for checks can change.

Three switches of a configuration ask for checks: for divergence of tables, for arrays whose
elements have no tag in common, and for undeclared fields. Here two encoders go over one tree
that differ in these switches alone. As long as the stricter one does not refuse to go on,
both are in the same state but for what their tables check, and a step of the one is a step
of the other: tables of a walk never diverge, and each of the other two checks happens at one
place, before which everything is the same on both sides.

The relation between the two programs is `Restricts`. Its third case leaves the lenient program
open, so once the stricter one has refused, nothing more is said. Which errors count as refusing is
a parameter, since each switch has its own, and one that does not differ may not refuse at all.

States are compared without what tables check (`unchecked`), because that is the one thing in which
they differ. That no table of a walk diverges is known from the walk itself, which interns a value
only under its own name (`Gathered`).
-/

namespace SyntaxPack

/-! ### Programs that may refuse

A relation between programs that is closed under `>>=`, so that a proof can follow both programs
side by side. -/

/-- One program ends as another one does, unless it refuses to go on. -/
inductive Restricts {α β : Type} (refuses : Error → Prop) (rel : α → β → Prop) :
    Except Error α → Except Error β → Prop
  | ok {a : α} {b : β} (h : rel a b) : Restricts refuses rel (.ok a) (.ok b)
  | error (e : Error) : Restricts refuses rel (.error e) (.error e)
  | refused {e : Error} (h : refuses e) (y : Except Error β) : Restricts refuses rel (.error e) y

namespace Restricts

variable {α β γ δ : Type} {refuses : Error → Prop} {rel : α → β → Prop} {rel' : γ → δ → Prop}
  {x : Except Error α} {y : Except Error β}

theorem refl (x : Except Error α) : Restricts refuses Eq x x := by
  cases x with
  | ok a => exact .ok rfl
  | error e => exact .error e

/-- Steps that are restricted make restricted programs: once a step is refused, so is the program.
-/
theorem bind {f : α → Except Error γ} {g : β → Except Error δ} (h : Restricts refuses rel x y)
    (hrest : ∀ a b, rel a b → Restricts refuses rel' (f a) (g b)) :
    Restricts refuses rel' (x >>= f) (y >>= g) := by
  cases h with
  | ok hab => exact hrest _ _ hab
  | error e => exact .error e
  | refused he y => exact .refused he _

/-- After the same program, what it has returned may be used. -/
theorem bind_same {f : α → Except Error γ} {g : α → Except Error δ}
    (h : ∀ a, x = .ok a → Restricts refuses rel' (f a) (g a)) :
    Restricts refuses rel' (x >>= f) (x >>= g) := by
  cases x with
  | ok a => exact h a rfl
  | error e => exact .error e

/-- Programs that are the same after a change of their results. -/
theorem of_map_eq {x y : Except Error α} {g : α → β} (h : y.map g = x.map g) :
    Restricts refuses (fun a b => g b = g a) x y := by
  cases x with
  | ok a =>
      cases y with
      | ok b => exact .ok (Except.ok.inj h)
      | error e => cases h
  | error e =>
      cases y with
      | ok b => cases h
      | error e' =>
          obtain rfl := Except.error.inj h
          exact .error e'

theorem eq_or_refuses {y : Except Error α} (h : Restricts refuses Eq x y) :
    (∃ e, x = .error e ∧ refuses e) ∨ x = y := by
  cases h with
  | ok hab => exact .inr (congrArg Except.ok hab)
  | error e => exact .inr rfl
  | refused he y => exact .inl ⟨_, rfl, he⟩

end Restricts

/-- A configuration may ask for checks that another one does not ask for, and asks for the same
otherwise. Whatever fails over such a check fails with an error that it `refuses` with. Each of the
two switches for fields and arrays is the same on both sides, or set on the lenient side only. -/
structure EncodingConfig.StricterThan (refuses : Error → Prop) (config config' : EncodingConfig) :
    Prop where
  rest : config' = { config with
    checkDivergence := config'.checkDivergence
    anyArrayFallback := config'.anyArrayFallback
    ignoreUnknownFields := config'.ignoreUnknownFields }
  fallback : config'.anyArrayFallback = config.anyArrayFallback ∨
    config'.anyArrayFallback = true ∧ ∀ array tags, refuses (.encode (.heterogeneousArray array tags))
  unknown : config'.ignoreUnknownFields = config.ignoreUnknownFields ∨
    config'.ignoreUnknownFields = true ∧ ∀ shape name, refuses (.schema (.unknownField shape name))

namespace Module

variable {tree : Tree} {registry : Registry} {m m' : Module} {id : NodeId} {shape : ShapeId}
  {refuses : Error → Prop} {config config' : EncodingConfig}

/-! ### Modules of a walk

Interning succeeds on both sides while the walk fills the tables, and its results differ in nothing
but the checks. -/

/-- Modules that differ in what their tables check, while a walk fills them. -/
structure Alike (tree : Tree) (registry : Registry) (m m' : Module) : Prop where
  unchecked : m'.unchecked = m.unchecked
  gathered : m.Gathered tree registry
  gathered' : m'.Gathered tree registry

namespace Alike

variable (h : m.Alike tree registry m')
include h

/-- No string diverges from itself. -/
theorem internString (s : String) : Restricts refuses (Alike tree registry)
    ((m.internString s).mapError .table) ((m'.internString s).mapError .table) := by
  obtain ⟨k, hk⟩ := h.gathered.internString_ok s
  obtain ⟨k', hk'⟩ := h.gathered'.internString_ok s
  rw [hk, hk']
  refine .ok ⟨?_, (h.gathered.internString hk).1.gathered, (h.gathered'.internString hk').1.gathered⟩
  have heq := internString_unchecked hk'
  rw [h.unchecked, internString_unchecked hk] at heq
  exact (Except.ok.inj heq).symm

/-- No array diverges from itself, and both sides know the same arrays. -/
theorem registerArray (harray : (tree.array? id).isSome = true) :
    Restricts refuses (fun r r' => r'.1 = r.1 ∧ r.2.Alike tree registry r'.2)
      ((m.registerArray id).mapError .table) ((m'.registerArray id).mapError .table) := by
  obtain ⟨⟨isNew, k⟩, hk⟩ := h.gathered.registerArray_ok id
  obtain ⟨⟨isNew', k'⟩, hk'⟩ := h.gathered'.registerArray_ok id
  have heq := registerArray_unchecked hk'
  rw [h.unchecked, registerArray_unchecked hk] at heq
  obtain ⟨hnew, hmodule⟩ := Prod.mk.inj (Except.ok.inj heq)
  rw [hk, hk']
  exact .ok ⟨hnew.symm, hmodule.symm, (h.gathered.registerArray harray hk).1.gathered,
    (h.gathered'.registerArray harray hk').1.gathered⟩

/-- No object diverges from itself, and no tag from another one of its name. -/
theorem registerObject (hr : registry.Valid) (hshape : tree.shape? registry id = some shape) :
    Restricts refuses (fun r r' => r'.1 = r.1 ∧ r.2.Alike tree registry r'.2)
      ((m.registerObject registry shape id).mapError .table)
      ((m'.registerObject registry shape id).mapError .table) := by
  obtain ⟨object, -, hlookup⟩ := Tree.shape?_eq_some_iff.mp hshape
  have hindex := (Registry.lookup_eq_some hlookup).1
  obtain ⟨⟨isNew, k⟩, hk⟩ := h.gathered.registerObject_ok hr hindex id
  obtain ⟨⟨isNew', k'⟩, hk'⟩ := h.gathered'.registerObject_ok hr hindex id
  have heq := registerObject_unchecked hk'
  rw [h.unchecked, registerObject_unchecked hk] at heq
  obtain ⟨hnew, hmodule⟩ := Prod.mk.inj (Except.ok.inj heq)
  rw [hk, hk']
  exact .ok ⟨hnew.symm, hmodule.symm, (h.gathered.registerObject hr hshape hk).1.gathered,
    (h.gathered'.registerObject hr hshape hk').1.gathered⟩

theorem setElementTag (id : NodeId) (tag : Tag) :
    (m.setElementTag id tag).Alike tree registry (m'.setElementTag id tag) where
  unchecked := congrArg (·.setElementTag id tag) h.unchecked
  gathered := @WalkInput.gathered_setElementTag ⟨tree, registry, {}⟩ m h.gathered id tag
  gathered' := @WalkInput.gathered_setElementTag ⟨tree, registry, {}⟩ m' h.gathered' id tag

end Alike

/-! ### The walk

The two checks are met here: `checkDeclared` at every new object, `elementTag` at every new array.
-/

/-- States of two walks that have come to the same point. -/
structure WalkState.Alike (tree : Tree) (registry : Registry) (s s' : WalkState) : Prop where
  module : s.module.Alike tree registry s'.module
  finished : s'.finished = s.finished

namespace WalkInput

variable {s s' : WalkState} {visit visit' : Value → WalkState → Except Error WalkState}
  (h : config.StricterThan refuses config')
include h

/-- The check for undeclared fields is made by the stricter encoder alone, or by both or neither. -/
theorem restricts_checkDeclared (shape : Shape) (object : Object) : Restricts refuses Eq
    ((⟨tree, registry, config⟩ : WalkInput).checkDeclared shape object)
    ((⟨tree, registry, config'⟩ : WalkInput).checkDeclared shape object) := by
  unfold checkDeclared
  rcases h.unknown with heq | ⟨hlenient, hrefuses⟩
  · simp only [heq]
    exact .refl _
  · simp only [hlenient, if_true]
    split
    · exact .ok rfl
    · split
      · exact .refused (hrefuses ..) _
      · exact .ok rfl

/-- A missing common tag is refused by the stricter encoder alone, or treated alike. -/
theorem restricts_elementTag (id : NodeId) (tags : List Tag) : Restricts refuses Eq
    ((⟨tree, registry, config⟩ : WalkInput).elementTag id tags)
    ((⟨tree, registry, config'⟩ : WalkInput).elementTag id tags) := by
  unfold elementTag
  rcases h.fallback with heq | ⟨hlenient, hrefuses⟩
  · simp only [heq]
    exact .refl _
  · simp only [hlenient, if_true]
    split
    · exact .ok rfl
    · split
      · exact .ok rfl
      · exact .refused (hrefuses ..) _

omit h in
theorem restricts_visitElements (hvisit : ∀ value s s', s.Alike tree registry s' →
      Restricts refuses (WalkState.Alike tree registry) (visit value s) (visit' value s'))
    (values : List Value) (hs : s.Alike tree registry s') :
    Restricts refuses (fun r r' => r'.1 = r.1 ∧ r.2.Alike tree registry r'.2)
      ((⟨tree, registry, config⟩ : WalkInput).visitElements visit values s)
      ((⟨tree, registry, config'⟩ : WalkInput).visitElements visit' values s') := by
  induction values generalizing s s' with
  | nil => exact .ok ⟨rfl, hs⟩
  | cons value values ih =>
      refine (hvisit value s s' hs).bind fun t t' ht => .bind_same fun tag _ => ?_
      refine (ih ht).bind fun r r' hr => ?_
      exact .ok ⟨congrArg (tag :: ·) hr.1, hr.2⟩

omit h in
theorem restricts_visitFields (hvisit : ∀ value s s', s.Alike tree registry s' →
      Restricts refuses (WalkState.Alike tree registry) (visit value s) (visit' value s'))
    (shape : String) (object : Object) (fields : List Field) (hs : s.Alike tree registry s') :
    Restricts refuses (WalkState.Alike tree registry)
      ((⟨tree, registry, config⟩ : WalkInput).visitFields visit shape object fields s)
      ((⟨tree, registry, config'⟩ : WalkInput).visitFields visit' shape object fields s') := by
  induction fields generalizing s s' with
  | nil => exact .ok hs
  | cons field fields ih =>
      simp only [visitFields, checkField_config tree registry config config']
      exact .bind_same fun _ _ => (hvisit _ s s' hs).bind fun t t' ht => ih ht

/-- Values are visited alike until a check is refused, if what is below them is. -/
theorem restricts_visitValue (hr : registry.Valid)
    (hvisit : ∀ value s s', s.Alike tree registry s' →
      Restricts refuses (WalkState.Alike tree registry) (visit value s) (visit' value s'))
    (value : Value) (hs : s.Alike tree registry s') :
    Restricts refuses (WalkState.Alike tree registry)
      ((⟨tree, registry, config⟩ : WalkInput).visitValue visit value s)
      ((⟨tree, registry, config'⟩ : WalkInput).visitValue visit' value s') := by
  cases value with
  | null | boolean _ | number _ => exact .ok hs
  | string text => exact (hs.module.internString text).bind fun k k' hk => .ok ⟨hk, hs.finished⟩
  | array id =>
      refine .bind_same fun elements helements => ?_
      have harray : (tree.array? id).isSome = true := by simp [Tree.requireArray_eq_ok.mp helements]
      refine (hs.module.registerArray harray).bind fun found found' hfound => ?_
      obtain ⟨_, k⟩ := found
      obtain ⟨isNew, k'⟩ := found'
      obtain ⟨rfl, hk⟩ := hfound
      have ht : WalkState.Alike tree registry { s with module := k } { s' with module := k' } :=
        ⟨hk, hs.finished⟩
      -- an array is new on both sides or known on both, so it is gone into together
      cases isNew with
      | false => exact .ok ht
      | true =>
          refine (restricts_visitElements hvisit elements ht).bind fun r r' hr => ?_
          obtain ⟨_, t⟩ := r
          obtain ⟨tags, t'⟩ := r'
          obtain ⟨rfl, ht⟩ := hr
          refine (restricts_elementTag h id tags).bind fun tag _ htag => ?_
          subst htag
          exact .ok ⟨ht.module.setElementTag id tag, congrArg (id :: ·) ht.finished⟩
  | object id =>
      refine .bind_same fun object hobject => .bind_same fun shape hlookup => ?_
      have hshape : tree.shape? registry id = some shape := Tree.shape?_eq_some_iff.mpr
        ⟨object, Tree.requireObject_eq_ok.mp hobject, Registry.shapeOf_eq_ok.mp hlookup⟩
      refine (hs.module.registerObject hr hshape).bind fun found found' hfound => ?_
      obtain ⟨_, k⟩ := found
      obtain ⟨isNew, k'⟩ := found'
      obtain ⟨rfl, hk⟩ := hfound
      have ht : WalkState.Alike tree registry { s with module := k } { s' with module := k' } :=
        ⟨hk, hs.finished⟩
      cases isNew with
      | false => exact .ok ht
      | true =>
          refine (restricts_checkDeclared h _ object).bind fun _ _ _ => ?_
          refine (restricts_visitFields hvisit _ object _ ht).bind fun t t' ht => ?_
          exact .ok ⟨ht.module, congrArg (id :: ·) ht.finished⟩

theorem restricts_visit (hr : registry.Valid) (depth : Nat) (value : Value)
    (hs : s.Alike tree registry s') : Restricts refuses (WalkState.Alike tree registry)
      ((⟨tree, registry, config⟩ : WalkInput).visit depth value s)
      ((⟨tree, registry, config'⟩ : WalkInput).visit depth value s') := by
  induction depth generalizing value s s' with
  | zero => exact .ok hs
  | succ depth ih => exact restricts_visitValue h hr (fun value _ _ hs => ih value hs) value hs

/-- A stricter walk comes to the same nodes as a more lenient one, and fills the same tables. -/
theorem restricts_walk (hr : registry.Valid) :
    Restricts refuses (fun r r' => r'.1.unchecked = r.1.unchecked ∧ r'.2 = r.2)
      (⟨tree, registry, config⟩ : WalkInput).walk (⟨tree, registry, config'⟩ : WalkInput).walk := by
  have hpartitioned : config'.partitionedTables = config.partitionedTables :=
    (congrArg EncodingConfig.partitionedTables h.rest).trans rfl
  have hempty : (empty config').unchecked = (empty config).unchecked := by
    rw [empty_unchecked, empty_unchecked]
    unfold empty
    simp only [hpartitioned]
  have hstart : WalkState.Alike tree registry ⟨.empty config, []⟩ ⟨.empty config', []⟩ :=
    ⟨⟨hempty, (inv_empty ⟨tree, registry, config⟩).gathered, (inv_empty ⟨tree, registry, config'⟩).gathered⟩,
      rfl⟩
  refine (restricts_visit h hr (tree.size + 1) tree.root hstart).bind fun t t' ht => ?_
  exact .ok ⟨congrArg (fun m => { m with root := tree.root }) ht.module.unchecked,
    congrArg List.reverse ht.finished⟩

end WalkInput

/-! ### The module and its bytes

After the walk no check is left that the switches decide. Deduplication, finalization and writing
are the same on modules that differ in their checks. -/

theorem restricts_build (h : config.StricterThan refuses config') (hr : registry.Valid) :
    Restricts refuses (fun m m' => m'.unchecked = m.unchecked) (Module.build tree registry config)
      (Module.build tree registry config') := by
  have hdedupe : config'.dedupe = config.dedupe := (congrArg EncodingConfig.dedupe h.rest).trans rfl
  have hminUses : config'.dedupeMinUses = config.dedupeMinUses :=
    (congrArg EncodingConfig.dedupeMinUses h.rest).trans rfl
  have hordering : config'.ordering = config.ordering :=
    (congrArg EncodingConfig.ordering h.rest).trans rfl
  have hlimit : config'.inlineLimit = config.inlineLimit :=
    (congrArg EncodingConfig.inlineLimit h.rest).trans rfl
  unfold Module.build
  refine (WalkInput.restricts_walk h hr).bind fun r r' hwalk => ?_
  obtain ⟨m, _⟩ := r
  obtain ⟨m', postOrder⟩ := r'
  obtain ⟨hm, rfl⟩ := hwalk
  have hfinalize : ∀ k k' : Module, k'.unchecked = k.unchecked →
      Restricts refuses (fun m m' => m'.unchecked = m.unchecked)
        (.ok (k.finalize config.ordering config.inlineLimit))
        (.ok (k'.finalize config'.ordering config'.inlineLimit)) := by
    intro k k' hk
    refine .ok ?_
    rw [← finalize_unchecked, ← finalize_unchecked, hk, hordering, hlimit]
  simp only [hdedupe, hminUses]
  split
  · have hmerged : Restricts refuses (fun state state' : Nat × Module =>
        (state'.1, state'.2.unchecked) = (state.1, state.2.unchecked))
        (m.dedupe tree registry postOrder config.dedupeMinUses)
        (m'.dedupe tree registry postOrder config.dedupeMinUses) := by
      refine .of_map_eq ?_
      rw [← dedupe_unchecked, ← dedupe_unchecked, hm]
    exact hmerged.bind fun state state' hstate => hfinalize _ _ (Prod.mk.inj hstate).2
  · exact hfinalize m m' hm

/-- What a stricter encoder does not refuse, it encodes as a more lenient one does. -/
theorem restricts_encode (h : config.StricterThan refuses config') (hr : registry.Valid) :
    Restricts refuses Eq (encode tree registry config) (encode tree registry config') := by
  have hwire : config'.wire = config.wire := (congrArg EncodingConfig.wire h.rest).trans rfl
  refine (restricts_build h hr).bind fun m m' hm => ?_
  have hunchecked : ∀ m, (⟨tree, registry, m, config.wire⟩ : WriteInput).bytes =
      (⟨tree, registry, m.unchecked, config.wire⟩ : WriteInput).bytes := fun m =>
    (WriteInput.bytes_unchecked _).symm
  rw [hwire, hunchecked m, hunchecked m', hm]
  exact .refl _

variable {description : RegistryDescription}

/-- Checks for divergence change nothing at all. Without `any` as a way out, an encoder fails over
a heterogeneous array or does the same as with it, and if it does not drop undeclared fields, it
fails over one or does the same as if it did. -/
theorem switches_restrict (hbuild : description.build = .ok registry) :
    encode tree registry { config with checkDivergence := true } =
        encode tree registry { config with checkDivergence := false } ∧
      ((∃ array tags, encode tree registry { config with anyArrayFallback := false } =
          .error (.encode (.heterogeneousArray array tags))) ∨
        encode tree registry { config with anyArrayFallback := false } =
          encode tree registry { config with anyArrayFallback := true }) ∧
      ((∃ shape name, encode tree registry { config with ignoreUnknownFields := false } =
          .error (.schema (.unknownField shape name))) ∨
        encode tree registry { config with ignoreUnknownFields := false } =
          encode tree registry { config with ignoreUnknownFields := true }) := by
  have hr := RegistryDescription.valid_of_build hbuild
  refine ⟨?_, ?_, ?_⟩
  · have hstricter : EncodingConfig.StricterThan (fun _ => False) { config with checkDivergence := true }
        { config with checkDivergence := false } := ⟨rfl, .inl rfl, .inl rfl⟩
    have hrun := (@restricts_encode tree _ _ _ _ hstricter hr).eq_or_refuses
    exact hrun.resolve_left fun hrefused => hrefused.elim fun _ hfalse => hfalse.2
  · have hstricter : EncodingConfig.StricterThan
        (fun e => ∃ array tags, e = .encode (.heterogeneousArray array tags))
        { config with anyArrayFallback := false } { config with anyArrayFallback := true } :=
      ⟨rfl, .inr ⟨rfl, fun array tags => ⟨array, tags, rfl⟩⟩, .inl rfl⟩
    refine (@restricts_encode tree _ _ _ _ hstricter hr).eq_or_refuses.imp_left fun hrefused => ?_
    obtain ⟨e, he, array, tags, rfl⟩ := hrefused
    exact ⟨array, tags, he⟩
  · have hstricter : EncodingConfig.StricterThan
        (fun e => ∃ shape name, e = .schema (.unknownField shape name))
        { config with ignoreUnknownFields := false } { config with ignoreUnknownFields := true } :=
      ⟨rfl, .inl rfl, .inr ⟨rfl, fun shape name => ⟨shape, name, rfl⟩⟩⟩
    refine (@restricts_encode tree _ _ _ _ hstricter hr).eq_or_refuses.imp_left fun hrefused => ?_
    obtain ⟨e, he, shape, name, rfl⟩ := hrefused
    exact ⟨shape, name, he⟩

/-- Two pairs pass all checks, so they are encoded alike whichever of them are asked for. -/
theorem pairs_encoded_alike : RegistryDescription.pairs.build = .ok .pairs ∧
    ∃ bytes, encode .pairs .pairs { checkDivergence := false } = .ok bytes ∧
      encode .pairs .pairs { anyArrayFallback := false } = .ok bytes ∧
      encode .pairs .pairs { ignoreUnknownFields := true } = .ok bytes := by
  have hsome : (encode .pairs .pairs {}).toOption.isSome = true := by decide +kernel
  have hstrict : (encode .pairs .pairs { anyArrayFallback := false }).toOption.isSome = true := by
    decide +kernel
  obtain ⟨bytes, hbytes⟩ := Option.isSome_iff_exists.mp hsome
  obtain ⟨again, hagain⟩ := Option.isSome_iff_exists.mp hstrict
  have hbytes := eq_ok_of_toOption hbytes
  have hagain := eq_ok_of_toOption hagain
  obtain ⟨hdivergence, hfallback, hunknown⟩ := @switches_restrict .pairs .pairs {} _ Registry.build_pairs
  refine ⟨Registry.build_pairs, bytes, hdivergence.symm.trans hbytes, ?_, ?_⟩
  · refine (hfallback.resolve_left fun hrefused => ?_).trans hbytes
    obtain ⟨array, tags, hrefused⟩ := hrefused
    cases hagain.symm.trans hrefused
  · refine (hunknown.resolve_left fun hrefused => ?_).symm.trans hbytes
    obtain ⟨shape, name, hrefused⟩ := hrefused
    cases hbytes.symm.trans hrefused

end Module

end SyntaxPack
