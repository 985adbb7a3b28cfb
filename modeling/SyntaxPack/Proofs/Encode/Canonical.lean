import SyntaxPack.Proofs.Encode.Survivors
/-!
# SyntaxPack.Proofs.Encode.Canonical

Deduplication makes encodings canonical.

Two trees that stand for the same have the same classes, whatever they share and however
their nodes are numbered: nodes of one class correspond to nodes of one class
(`Paired.sameClass_iff`). The walks of both trees come to the classes in the same order, so the
tables list corresponding survivors in the same order, and the modules are the same byte
by byte.
-/

namespace SyntaxPack

/-- The two pairs again, the outer one first, with its fields in the other order and the null
of the inner one left out. -/
def Tree.pairsAgain : Tree where
  nodes := #[.object ⟨"Pair", [("next", .object ⟨1⟩), ("left", .number ⟨0x3ff0000000000000⟩)]⟩,
    .object ⟨"Pair", [("left", .number ⟨0x4000000000000000⟩)]⟩]
  root := .object ⟨0⟩

namespace Module

variable {input : WalkInput} {other : Tree} {w : Trace input} {w' : Trace (input.on other)}
  {d : Deduped w} {d' : Deduped w'} {rel : NodeId → NodeId → Prop} {x y z z' : NodeId}
  {shape : ShapeId}

/-- Nodes that look like members of one class are members of one class. -/
theorem sameClass_of_sameClass (hc : Tree.Corresponding input.tree other input.registry rel)
    (hnode : ∀ x y, rel x y → w.HasNode x ∧ w'.HasNode y) (hxy : rel x y) (hzz' : rel z z')
    (h : d.SameClass x z) : d'.SameClass y z' := by
  have hback : Tree.Corresponding other input.tree input.registry (flip rel) := fun y x hxy =>
    (hc x y hxy).flip
  refine d'.sameClass_of_corresponding ((hback.comp d.corresponding).comp hc) ?_ ⟨z, ⟨x, hxy, h⟩, hzz'⟩
  rintro y z' ⟨z, ⟨x, hxy, -⟩, hzz'⟩
  exact ⟨(hnode x y hxy).2, (hnode z z' hzz').2⟩

/-- Two deduplicated walks of trees that look the same, class by class. -/
structure Paired (d : Deduped w) (d' : Deduped w') (rel : NodeId → NodeId → Prop) : Prop where
  corresponding : Tree.Corresponding input.tree other input.registry rel
  hasNode : ∀ x y, rel x y → w.HasNode x ∧ w'.HasNode y
  root : Tree.Alike rel input.tree.root other.root
  left_class : ∀ x x' y, d.SameClass x x' → rel x' y → rel x y
  right_class : ∀ x y y', rel x y → d'.SameClass y y' → rel x y'

namespace Paired

variable (h : Paired d d' rel)
include h

theorem flip : @Paired (input.on other) input.tree w' w d' d (flip rel) where
  corresponding x y hxy := (h.corresponding y x hxy).flip
  hasNode x y hxy := (h.hasNode y x hxy).symm
  root := h.root.flip
  left_class x x' y hclass hxy := h.right_class y x' x hxy hclass.symm
  right_class x y y' hxy hclass := h.left_class y' y x hclass.symm hxy

/-- Classes correspond to classes. -/
theorem sameClass_iff (hxy : rel x y) (hzz' : rel z z') : d.SameClass x z ↔ d'.SameClass y z' :=
  ⟨sameClass_of_sameClass h.corresponding h.hasNode hxy hzz',
    sameClass_of_sameClass h.flip.corresponding h.flip.hasNode hxy hzz'⟩

/-- What survives for corresponding nodes corresponds. -/
theorem rel_first (hxy : rel x y) : rel (d.first x) (d'.first y) := by
  obtain ⟨hx, hy⟩ := h.hasNode x y hxy
  exact h.right_class _ y _ (h.left_class _ x y (d.sameClass_first hx) hxy) (d'.sameClass_first hy).symm

theorem twins : Twins w w' rel where
  corresponding := h.corresponding
  root := h.root
  ranking := ⟨_, d.ranking⟩
  ranking' := ⟨_, d'.ranking⟩

/-- Survivors that are selected alike correspond, one after another. -/
theorem survivors_match {f g : Value → Option NodeId}
    (hfg : ∀ left right, Tree.Alike rel left right → Option.Rel rel (f left) (g right)) :
    List.Forall₂ rel ((w.log.filterMap f).map d.first).eraseDups
      ((w'.log.filterMap g).map d'.first).eraseDups := by
  obtain ⟨xs, ys, hall, hlog, hlog'⟩ := h.twins.nodes hfg
  rw [Firsts.eraseDups_map_congr hlog, Firsts.eraseDups_map_congr hlog']
  -- survivors of corresponding nodes, which survive as themselves
  have hfirsts : List.Forall₂ (fun a b => rel a b ∧ d.first a = a ∧ d'.first b = b)
      (xs.map d.first) (ys.map d'.first) := by
    rw [List.forall₂_map_left_iff, List.forall₂_map_right_iff]
    refine hall.imp fun x y hxy => ⟨h.rel_first hxy, ?_, ?_⟩
    · exact d.first_first (h.hasNode x y hxy).1
    · exact d'.first_first (h.hasNode x y hxy).2
  refine (Firsts.forall₂_eraseDups hfirsts fun a b a' b' _ _ hab hab' => ?_).imp fun _ _ hab => hab.1
  obtain ⟨hrel, ha, hb⟩ := hab
  obtain ⟨hrel', ha', hb'⟩ := hab'
  have hleft := d.first_eq_iff (h.hasNode a b hrel).1 (h.hasNode a' b' hrel').1
  have hright := d'.first_eq_iff (h.hasNode a b hrel).2 (h.hasNode a' b' hrel').2
  rw [ha, ha'] at hleft
  rw [hb, hb'] at hright
  rw [hleft, hright]
  exact h.sameClass_iff hrel hrel'

/-! ### The modules -/

theorem strings_eq (hordering : input.config.ordering = .insertion) :
    d'.finalized.strings.keys = d.finalized.strings.keys := by
  rw [d.keys_strings, d'.keys_strings, w.keys_strings, w'.keys_strings, hordering]
  exact congrArg (List.filter _) (h.twins.eraseDups_eq fun _ _ => string?_of_alike)

theorem arrays_match (hordering : input.config.ordering = .insertion) :
    List.Forall₂ rel d.finalized.arrays.keys d'.finalized.arrays.keys := by
  rw [d.keys_arrays hordering, d'.keys_arrays hordering]
  exact h.survivors_match fun _ _ => array?_of_alike

theorem objects_match (hr : input.registry.Valid) (hordering : input.config.ordering = .insertion)
    (hinline : input.config.inlineObjects = false) :
    List.Forall₂ (TablesMatch rel) d.finalized.objects.tables d'.finalized.objects.tables := by
  have hb := d.located hr
  have hb' : Located (input.on other) w'.shapes d'.classes.number d'.finalized := d'.located hr
  refine tablesMatch_of_keys hb.filled.wellShaped hb'.filled.wellShaped
    (hb'.partitioned.trans hb.partitioned.symm) ?_ fun shape t t' ht ht' => ?_
  · have hlogs : (input.on other).shapesOf w'.log = input.shapesOf w.log := h.twins.shapes_eq
    have hshapes : d'.finalized.objects.shapes = d.finalized.objects.shapes := by
      rw [d.shapes_finalized, d'.shapes_finalized, w.logged.shapes, w'.logged.shapes, hlogs]
    exact hshapes
  · rw [d.keys_objects hordering hinline ht, d'.keys_objects hordering hinline ht']
    exact h.survivors_match fun _ _ => tabled?_of_alike h.corresponding _ _

/-- The modules are written alike. -/
theorem mirrors (hr : input.registry.Valid) (hordering : input.config.ordering = .insertion)
    (hinline : input.config.inlineObjects = false) :
    Mirrors input other rel w.shapes d.classes.number d'.classes.number d.finalized d'.finalized where
  left := d.located hr
  right := h.twins.shapes_eq ▸ d'.built hr
  corresponding := h.corresponding
  hasNode x y hxy :=
    ⟨d.hasNode_finalized.mpr (h.hasNode x y hxy).1, d'.hasNode_finalized.mpr (h.hasNode x y hxy).2⟩
  root := h.root
  strings := h.strings_eq hordering
  arrays := h.arrays_match hordering
  objects := h.objects_match hr hordering hinline
  survivor x y s s' hxy hs hs' := by
    obtain ⟨hx, hy⟩ := h.hasNode x y hxy
    obtain rfl := Option.some.inj ((d.repOf_finalized hx).symm.trans hs)
    obtain rfl := Option.some.inj ((d'.repOf_finalized hy).symm.trans hs')
    exact h.rel_first hxy
  unique x y s s' z z' hxy hs hs' hzz' hz hz' := by
    obtain ⟨hx, hy⟩ := h.hasNode x y hxy
    obtain ⟨hzNode, hzNode'⟩ := h.hasNode z z' hzz'
    obtain rfl := Option.some.inj ((d.repOf_finalized hx).symm.trans hs)
    obtain rfl := Option.some.inj ((d'.repOf_finalized hy).symm.trans hs')
    rw [← d.first_of_indexed hr hz, ← d'.first_of_indexed hr hz', d.first_eq_iff hx hzNode,
      d'.first_eq_iff hy hzNode']
    exact h.sameClass_iff hxy hzz'

end Paired

/-! ### Trees that stand for the same -/

variable {description : RegistryDescription} {registry : Registry} {tree : Tree}
  {config : EncodingConfig} {bytes bytes' : List UInt8}

theorem exists_deduped_of_build {m : Module} (hr : registry.Valid) (hdedupe : config.dedupe = true)
    (hminUses : config.dedupeMinUses ≤ 2) (h : build tree registry config = .ok m) :
    ∃ (w : Trace ⟨tree, registry, config⟩) (d : Deduped w), m = d.finalized := by
  obtain ⟨⟨walked, postOrder⟩, hwalk, h₁⟩ := bind_eq_ok.mp h
  obtain ⟨w, rfl, rfl⟩ := WalkInput.exists_trace hr hwalk
  simp only [hdedupe, if_true] at h₁
  obtain ⟨⟨_, merged⟩, hmerge, h₂⟩ := bind_eq_ok.mp h₁
  obtain ⟨thinned, rfl⟩ := w.exists_thinned hmerge
  obtain ⟨d, hd⟩ := thinned.exists_deduped hminUses
  exact ⟨w, d, by rw [← Except.ok.inj h₂, ← hd]; rfl⟩

/-- A relation by which two trees stand for the same pairs their walks, class by class. -/
theorem paired_of_matched (d : Deduped w) (d' : Deduped w')
    (hmatched : ∀ x y, rel x y → Tree.Matched input.tree other rel x y)
    (hroot : Tree.Alike rel input.tree.root other.root) :
    ∃ rel', Paired d d' rel' := by
  -- the relation between the nodes that are met, which is then closed under classes
  have hmet := w.corresponding_of_sameSlots w' fun x y hxy hx => (hmatched x y hxy).sameSlots hx.kind
  refine ⟨_, (d.corresponding.comp hmet).comp d'.corresponding, ?_, ?_, ?_, ?_⟩
  · rintro x y ⟨b, ⟨a, hxa, -⟩, hby⟩
    exact ⟨hxa.1, hby.2.1⟩
  · generalize hleft : input.tree.root = left at hroot
    generalize hright : other.root = right at hroot
    cases hroot with
    | plain hnode => exact .plain hnode
    | array hab =>
        have hx := w.hasNode_root (by rw [hleft]; rfl)
        have hy : w'.HasNode _ := w'.hasNode_root (by rw [show (input.on other).tree.root = _ from hright]; rfl)
        exact .array ⟨_, ⟨_, d.sameClass_self hx, hab, hx, hy⟩, d'.sameClass_self hy⟩
    | object hab =>
        have hx := w.hasNode_root (by rw [hleft]; rfl)
        have hy : w'.HasNode _ := w'.hasNode_root (by rw [show (input.on other).tree.root = _ from hright]; rfl)
        exact .object ⟨_, ⟨_, d.sameClass_self hx, hab, hx, hy⟩, d'.sameClass_self hy⟩
  · rintro x x' y hclass ⟨b, ⟨a, hxa, hab⟩, hby⟩
    exact ⟨b, ⟨a, hclass.trans hxa, hab⟩, hby⟩
  · rintro x y y' ⟨b, ⟨a, hxa, hab⟩, hby⟩ hclass
    exact ⟨b, ⟨a, hxa, hab⟩, hby.trans hclass⟩

end Module

end SyntaxPack
