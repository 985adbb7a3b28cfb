import SyntaxPack.Proofs.Encode.Slots
import SyntaxPack.Proofs.Tree.Corresponding
import SyntaxPack.Proofs.Written
/-!
# SyntaxPack.Proofs.Encode.Mirror

Two modules that are written alike.

`Mirrors` relates the finalized modules of two trees: related nodes look the same, the
tables list related nodes in the same order, and a related node survives as a related
one. Where the one is written, so is the other, byte by byte. `Follows` carries this
from token to token; labels and sites make no difference, as they are part of errors only.

The two trees need not have the same arena, and the two modules need not have come about in the same
way. Of a first encoding and a second one of the decoded tree, for one, the nodes have other
positions and the walk has met them in another order. All that the bytes depend on is where the
entries of the tables stand, so this is what `Mirrors` is about: `places` shows that it gives
related nodes the same index, and the rest follows the functions that write, from a token up to the
whole module.

Only one direction is shown. It is enough, since the claim of interest is that the second encoding
comes to the same bytes as the first, which is known to have succeeded.
-/

namespace SyntaxPack

/-- Wherever one program succeeds, another one has the same result. Unlike an equation this says
nothing about a program that fails, whose error may name a node of the one tree or the other. -/
def Follows {α : Type} (x y : Except Error α) : Prop := ∀ a, x = .ok a → y = .ok a

namespace Follows

variable {α β γ : Type} {x y : Except Error α}

theorem refl (x : Except Error α) : Follows x x := fun _ h => h

/-- Nothing is said about a program that fails. -/
theorem error {e : Error} : Follows (.error e) y := by
  intro a ha
  simp at ha

/-- Two programs in steps follow one another step by step. The rest need only be followed for the
results that the first step can have. -/
theorem bind {f g : α → Except Error β} (h : Follows x y)
    (hrest : ∀ a, x = .ok a → Follows (f a) (g a)) : Follows (x >>= f) (y >>= g) := by
  intro b hb
  obtain ⟨a, ha, hfa⟩ := bind_eq_ok.mp hb
  exact bind_eq_ok.mpr ⟨a, h a ha, hrest a ha b hfa⟩

/-- Programs for corresponding items of two lists. -/
theorem mapM {f : α → Except Error γ} {g : β → Except Error γ} {xs : List α} {ys : List β}
    (h : List.Forall₂ (fun x y => Follows (f x) (g y)) xs ys) : Follows (xs.mapM f) (ys.mapM g) := by
  intro results hresults
  rw [mapM_eq_ok] at hresults ⊢
  induction h generalizing results with
  | nil =>
      cases hresults
      exact .nil
  | cons hhead _ ih =>
      cases hresults with
      | cons hresult hrest => exact .cons (hhead _ hresult) (ih _ hrest)

/-- The label of a table is part of the error of a token that is too large, and of nothing else. -/
theorem writeToken (enc : IndexEncoding) (label label' : String) (value : Nat) :
    Follows ((enc.writeToken label value).mapError .encode)
      ((enc.writeToken label' value).mapError .encode) := by
  intro bytes h
  rw [mapError_eq_ok, IndexEncoding.writeToken_eq_ok_iff] at h ⊢
  exact h

/-- So is the label of a count. -/
theorem ofCount (label label' : String) (count : Nat) :
    Follows ((Bytes.ofCount label count).mapError .encode)
      ((Bytes.ofCount label' count).mapError .encode) := by
  intro bytes h
  rw [mapError_eq_ok, Bytes.ofCount_eq_ok_iff] at h ⊢
  exact h

/-- And that of a substream. -/
theorem frame (label label' : String) (body : List UInt8) :
    Follows (Module.WriteInput.frame label body) (Module.WriteInput.frame label' body) := by
  intro bytes h
  rw [Module.WriteInput.frame, mapError_eq_ok, Bytes.framed_eq_ok_iff] at h ⊢
  exact h

end Follows

namespace Module

open WriteInput (slotTag)

/-! ### Matching modules

What has to be the same about two modules. The tables of one are compared to those of the other
place by place, the tables of objects both as a list and each of them as a list of its entries. -/

/-- The same encoder at work on another tree. -/
abbrev WalkInput.on (input : WalkInput) (tree : Tree) : WalkInput := { input with tree := tree }

/-- A node has an index in one of the tables. -/
def Indexed (m : Module) (id : NodeId) : Prop :=
  id ∈ m.arrays.keys ∨ ∃ table ∈ m.objects.tables, id ∈ table.table.keys

/-- What has an index survives as itself. Only survivors get an index, so a node in a table's order
is never one that was merged away. -/
theorem Located.repOf_of_indexed {input : WalkInput} {shapes : List ShapeId} {rank : NodeId → Nat}
    {m : Module} {id : NodeId} (h : Located input shapes rank m) (hid : m.Indexed id) :
    m.HasNode input.tree input.registry id ∧
      m.repOf input.tree input.registry id = some id := by
  rcases hid with harray | ⟨table, htable, hkey⟩
  · obtain ⟨hsome, hnode⟩ := h.array_of_mem_keys harray
    exact ⟨hnode, (repOf_array hsome).trans (h.arrays.keys_live id harray)⟩
  · obtain ⟨shape, ht, -⟩ := h.filled.wellShaped.exists_table? htable
    obtain ⟨own, hown, htogether, hobject⟩ := h.object_of_mem_keys ht hkey
    refine ⟨(hasNode_object_iff hown).mpr hobject, ?_⟩
    rw [repOf_object hown, ← ObjectTables.table?_congr htogether, ht, Option.bind_some]
    exact (h.objects shape _ ht).keys_live id hkey

/-- Two tables of objects for the same shapes, with related objects in the same order. -/
def TablesMatch (rel : NodeId → NodeId → Prop) (t t' : ObjectTable) : Prop :=
  t'.shape = t.shape ∧ List.Forall₂ rel t.table.keys t'.table.keys

/-- Tables for the same shapes match if those of one shape do. Which table holds the objects of a
shape depends on whether tables are partitioned, and on the shapes in their order. -/
theorem tablesMatch_of_keys {rel : NodeId → NodeId → Prop} {objects objects' : ObjectTables}
    (hw : objects.WellShaped) (hw' : objects'.WellShaped)
    (hpartitioned : objects'.partitioned = objects.partitioned)
    (hshapes : objects'.tables.map (·.shape) = objects.tables.map (·.shape))
    (h : ∀ shape t t', objects.table? shape = some t → objects'.table? shape = some t' →
      List.Forall₂ rel t.keys t'.keys) :
    List.Forall₂ (TablesMatch rel) objects.tables objects'.tables := by
  have hlength : objects.tables.length = objects'.tables.length := by
    simpa using congrArg List.length hshapes.symm
  refine List.forall₂_iff_zip.mpr ⟨hlength, fun {table table'} hmem => ?_⟩
  obtain ⟨htable, htable'⟩ := List.of_mem_zip hmem
  have hshape : table'.shape = table.shape := by
    obtain ⟨i, hi⟩ := List.getElem?_of_mem hmem
    obtain ⟨hi, hi'⟩ := List.getElem?_zip_eq_some.mp hi
    have hget := congrArg (·[i]?) hshapes
    simpa [hi, hi'] using hget
  obtain ⟨shape, ht, hown⟩ := hw.exists_table? htable
  refine ⟨hshape, h shape _ _ ht ?_⟩
  cases hp : objects.partitioned with
  | false =>
      obtain ⟨t', htables⟩ := hw'.shared (hpartitioned.trans hp)
      rw [htables, List.mem_singleton] at htable'
      rw [ObjectTables.table?_of_shared (hpartitioned.trans hp) htables, htable']
  | true =>
      refine (hw'.table?_eq_some_iff (hpartitioned.trans hp)).mpr ?_
      have htable' : (⟨table'.shape, table'.table⟩ : ObjectTable) ∈ objects'.tables := htable'
      rwa [hshape, hown hp] at htable'

/-- Two finalized modules in which related nodes have the same places. The first one is only known
to locate its nodes, the second one is known to have been built. `survivor` and `unique` are about
what has been merged: related nodes survive as related ones, and if one of two related survivors is
an entry, then so is the other, at the place that is related to it. -/
structure Mirrors (input : WalkInput) (other : Tree) (rel : NodeId → NodeId → Prop)
    (shapes : List ShapeId) (rank rank' : NodeId → Nat) (m m' : Module) : Prop where
  left : Located input shapes rank m
  right : Built (input.on other) shapes rank' m'
  corresponding : Tree.Corresponding input.tree other input.registry rel
  hasNode : ∀ x y, rel x y →
    m.HasNode input.tree input.registry x ∧ m'.HasNode other input.registry y
  root : Tree.Alike rel input.tree.root other.root
  strings : m'.strings.keys = m.strings.keys
  arrays : List.Forall₂ rel m.arrays.keys m'.arrays.keys
  objects : List.Forall₂ (TablesMatch rel) m.objects.tables m'.objects.tables
  survivor : ∀ x y s s', rel x y → m.repOf input.tree input.registry x = some s →
    m'.repOf other input.registry y = some s' → rel s s'
  unique : ∀ x y s s' z z', rel x y → m.repOf input.tree input.registry x = some s →
    m'.repOf other input.registry y = some s' → rel z z' → m.Indexed z → m'.Indexed z' →
    (s = z ↔ s' = z')

variable {input : WalkInput} {other : Tree} {rel : NodeId → NodeId → Prop} {shapes : List ShapeId}
  {rank rank' : NodeId → Nat} {m m' : Module} {x y : NodeId} {shape : ShapeId} {left right : Value}

/-- What is found for an object is the node that it survives as. -/
theorem FoundObject.repOf_eq {t : UniqueTable NodeId} {entry : Handle} {survivor : NodeId}
    (h : FoundObject input rank m shape x t entry survivor)
    (hshape : input.tree.shape? input.registry x = some shape) :
    m.repOf input.tree input.registry x = some survivor := by
  rw [repOf_object hshape, h.table, Option.bind_some, UniqueTable.rep, Table.require_eq_ok.mp h.require,
    Option.bind_some, h.value]

/-- Values have one list of runtime tags. -/
theorem WalkInput.tags_unique {values : List Value} {tags tags' : List Tag}
    (h : List.Forall₂ (fun value tag => input.tagOf value = .ok tag) values tags)
    (h' : List.Forall₂ (fun value tag => input.tagOf value = .ok tag) values tags') :
    tags = tags' := by
  induction h generalizing tags' with
  | nil =>
      cases h'
      rfl
  | cons htag _ ih =>
      cases h' with
      | cons htag' hrest => rw [Except.ok.inj (htag.symm.trans htag'), ih hrest]

/-- The element tag of an array depends on the tags of its elements. -/
theorem WalkInput.elementTag_on (input : WalkInput) (other : Tree) {tags : List Tag} {tag : Tag}
    (h : input.elementTag x tags = .ok tag) : (input.on other).elementTag y tags = .ok tag := by
  simp only [WalkInput.elementTag] at h ⊢
  cases hunify : Tag.unify tags with
  | some unified =>
      rw [hunify] at h
      exact h
  | none =>
      simp only [hunify] at h ⊢
      split at h
      · rename_i hany
        rw [if_pos hany]
        exact h
      · simp at h

/-- Related arrays have one element tag. -/
theorem elementTag?_of_complete (hc : Tree.Corresponding input.tree other input.registry rel)
    (hxy : rel x y) (hx : input.Complete m x) (hy : (input.on other).Complete m' y)
    (harray : (input.tree.array? x).isSome = true) : m'.elementTag? y = m.elementTag? x := by
  obtain ⟨elements, helements⟩ := Option.isSome_iff_exists.mp harray
  obtain ⟨others, hothers, hslots⟩ := (hc x y hxy).of_array helements
  obtain ⟨tags, tag, htags, htag, hget⟩ := hx.array elements helements
  obtain ⟨tags', tag', htags', htag', hget'⟩ := hy.array others hothers
  have hcopies : List.Forall₂ (fun value tag => (input.on other).tagOf value = .ok tag) others tags :=
    hc.tags_of hslots htags
  obtain rfl : tags = tags' := WalkInput.tags_unique hcopies htags'
  obtain rfl : tag = tag' :=
    Except.ok.inj ((WalkInput.elementTag_on input other htag).symm.trans htag')
  rw [hget, hget']

namespace Mirrors

variable (h : Mirrors input other rel shapes rank rank' m m')
include h

/-! ### Places

An index is a place in a list of keys. The lists of both modules are related entry by entry, so
what is left to show is that related nodes survive as entries that face one another. -/

/-- In tables that match, what survives for related nodes stands at the same place or at none. The
first survivor has a counterpart at its place, and since survivors are unique this counterpart is
the second survivor. -/
theorem places {keys keys' : List NodeId} (hkeys : List.Forall₂ rel keys keys')
    (hindexed : ∀ z ∈ keys, m.Indexed z) (hindexed' : ∀ z ∈ keys', m'.Indexed z) (hxy : rel x y)
    {s s' : NodeId} (hs : m.repOf input.tree input.registry x = some s)
    (hs' : m'.repOf other input.registry y = some s') :
    (∀ i : Nat, keys[i]? = some s → keys'[i]? = some s') ∧ (s ∉ keys → s' ∉ keys') := by
  have hunique : ∀ z z', z ∈ keys → z' ∈ keys' → rel z z' → (s = z ↔ s' = z') :=
    fun z z' hz hz' hzz' => h.unique x y s s' z z' hxy hs hs' hzz' (hindexed z hz) (hindexed' z' hz')
  constructor
  · intro i hi
    obtain ⟨z', hz', hrel⟩ := getElem?_of_forall₂ hkeys.flip hi
    have heq := (hunique s z' (List.mem_of_getElem? hi) (List.mem_of_getElem? hz') hrel).mp rfl
    rwa [heq]
  · intro hnot hmem
    obtain ⟨z, hz, hrel⟩ := exists_left_of_forall₂ hkeys hmem
    exact hnot ((hunique z s' hz hmem hrel).mpr rfl ▸ hz)

/-- The tables of a shape match. Both modules look for the table of a shape in the same way, from
the front, so they find it at the same position of two lists that match. -/
theorem table_keys {t t' : UniqueTable NodeId} (ht : m.objects.table? shape = some t)
    (ht' : m'.objects.table? shape = some t') : List.Forall₂ rel t.keys t'.keys := by
  have hp : m'.objects.partitioned = m.objects.partitioned :=
    h.right.partitioned.trans h.left.partitioned.symm
  obtain ⟨table, hfind, rfl⟩ := Option.map_eq_some_iff.mp ht
  obtain ⟨table', hfind', rfl⟩ := Option.map_eq_some_iff.mp ht'
  have hobjects := h.objects
  generalize m.objects.tables = tables at hfind hobjects
  generalize m'.objects.tables = tables' at hfind' hobjects
  induction hobjects with
  | nil => simp at hfind
  | @cons u u' _ _ hmatch _ ih =>
      have hholds : m'.objects.holds shape u' = m.objects.holds shape u := by
        rw [ObjectTables.holds, ObjectTables.holds, hp, hmatch.1]
      cases hu : m.objects.holds shape u with
      | true =>
          rw [List.find?_cons_of_pos hu] at hfind
          rw [List.find?_cons_of_pos (hholds.trans hu)] at hfind'
          obtain rfl := Option.some.inj hfind
          obtain rfl := Option.some.inj hfind'
          exact hmatch.2
      | false =>
          rw [List.find?_cons_of_neg (by simp [hu])] at hfind
          rw [List.find?_cons_of_neg (by simp [hholds, hu])] at hfind'
          exact ih hfind hfind'

/-! ### Tokens

The smallest pieces. A token has bytes and a stream, and the stream of a shape's tokens is known by
the index of its tag; both modules give all registered tags the same indices. -/

/-- A registered tag has the same index in both modules, or in none. -/
theorem tagIndex_iff {tag : Tag} (htag : tag.Registered input.registry) (i : Nat) :
    m'.tagIndex input.registry tag = .ok i ↔ m.tagIndex input.registry tag = .ok i :=
  (h.right.tags.tagIndex_eq_ok_iff tag i htag).trans (h.left.tags.tagIndex_eq_ok_iff tag i htag).symm

/-- Bytes of a registered tag go to the same stream. -/
theorem token_eq {tag : Tag} (htag : tag.Registered input.registry) (bytes : List UInt8) :
    ((input.on other).writer m').token tag bytes = (input.writer m).token tag bytes := by
  cases tag with
  | builtin b => rfl
  | shape id =>
      have hindex : (m'.tagIndex input.registry (.shape id)).toOption =
          (m.tagIndex input.registry (.shape id)).toOption := by
        refine Option.ext fun i => ?_
        have hiff := h.tagIndex_iff htag i
        cases hm : m.tagIndex input.registry (.shape id) <;>
          cases hm' : m'.tagIndex input.registry (.shape id) <;>
          simp_all [Except.toOption]
      simp only [WriteInput.token, Tag.streamIndex, hindex]

/-- The token of a tag itself is the index of the tag, in the stream of `any`. -/
theorem follows_tagToken {tag : Tag} (htag : tag.Registered input.registry) :
    Follows ((input.writer m).tagToken tag) (((input.on other).writer m').tagToken tag) := by
  refine Follows.bind (fun index hindex => ?_) fun index _ => .bind (.refl _) fun bytes _ => ?_
  · rw [mapError_eq_ok] at hindex ⊢
    exact (h.tagIndex_iff htag index).mpr hindex
  · rw [h.token_eq (Tag.registered_builtin _ .any)]
    exact .refl _

/-- A reference is written alike if it is one to the same index. -/
theorem follows_referenceToken {tag : Tag} (htag : tag.Registered input.registry)
    (label label' : String) (index : Option Nat) :
    Follows ((input.writer m).referenceToken tag label index)
      (((input.on other).writer m').referenceToken tag label' index) := by
  refine Follows.bind (.writeToken _ _ _ _) fun bytes _ => ?_
  rw [h.token_eq htag]
  exact .refl _

/-! ### Slots

What is in a slot depends on the value, on how the slot is laid out and, for objects, on whether the
object has an entry at all. If it has none, its fields are written in the slot itself, and the
lemmas about slots have to assume that fields are written alike. They assume it for nodes of the
same rank only, which is what makes the induction in the next section possible. -/

/-- A slot without an object says so by the tag of null, if objects may be written in place, or else
by a reference to nothing. -/
theorem follows_nullObjectSlot {expected : Option ShapeId}
    (htag : (slotTag expected).Registered input.registry) :
    Follows ((input.writer m).nullObjectSlot expected)
      (((input.on other).writer m').nullObjectSlot expected) := by
  unfold WriteInput.nullObjectSlot
  refine fun tokens htokens => ?_
  split at htokens
  · rename_i hinline
    rw [if_pos hinline]
    exact Follows.bind (h.follows_tagToken (Tag.registered_builtin _ _)) (fun _ _ => .refl _) _ htokens
  · rename_i hinline
    rw [if_neg hinline]
    exact Follows.bind (h.follows_referenceToken htag _ _ _) (fun _ _ => .refl _) _ htokens

/-- An object slot is written alike if, in case objects are written in place, the fields of
related objects of the same number are. -/
theorem follows_objectSlot (hxy : rel x y)
    (hshape : input.tree.shape? input.registry x = some shape) {expected : Option ShapeId}
    (hexpected : expected.all (· = shape) = true) (site site' : Site)
    {write write' : ShapeId → NodeId → Except Error (List Token)}
    (hfields : input.config.inlineObjects = true → ∀ s s', rel s s' →
      input.tree.shape? input.registry s = some shape → rank' s' = rank' y →
      Follows (write shape s) (write' shape s')) :
    Follows ((input.writer m).objectSlot write expected site x)
      (((input.on other).writer m').objectSlot write' expected site' y) := by
  obtain ⟨hx, hy⟩ := h.hasNode x y hxy
  have hshape' : other.shape? input.registry y = some shape :=
    (h.corresponding x y hxy).shape?_eq.trans hshape
  have hobject := (hasNode_object_iff hshape).mp hx
  obtain ⟨t, entry, s, hfound⟩ := h.left.object hshape hobject
  obtain ⟨t', entry', s', hfound'⟩ := h.right.object hshape' ((hasNode_object_iff hshape').mp hy)
  have hlisted := mem_tagsOf_shape.mpr (h.left.filled.mem_shapes shape x hshape hobject)
  have hregistered := h.left.filled.tags.registered_of_mem hlisted
  have hslotTag : (slotTag expected).Registered input.registry := by
    cases expected with
    | none => exact Tag.registered_builtin _ .object
    | some named =>
        obtain rfl : named = shape := by simpa using hexpected
        exact hregistered
  -- Each side writes what survives of its object. The two survivors are entries of matching
  -- tables.
  -- both survivors stand at one place of the table, or both at none
  have hindexed : ∀ z ∈ t.keys, m.Indexed z := fun z hz => by
    obtain ⟨table, hmem, -, rfl⟩ := ObjectTables.exists_mem_of_table? hfound.table
    exact Or.inr ⟨table, hmem, hz⟩
  have hindexed' : ∀ z ∈ t'.keys, m'.Indexed z := fun z hz => by
    obtain ⟨table, hmem, -, rfl⟩ := ObjectTables.exists_mem_of_table? hfound'.table
    exact Or.inr ⟨table, hmem, hz⟩
  have hrep := hfound.repOf_eq hshape
  have hrep' : m'.repOf other input.registry y = some s' := hfound'.repOf_eq hshape'
  obtain ⟨hplace, hnone⟩ := h.places (h.table_keys hfound.table hfound'.table) hindexed hindexed' hxy
    hrep hrep'
  have hsame : ∀ {i j : Nat}, t.keys[i]? = some s → t'.keys[j]? = some s' → i = j := by
    intro i j hi hj
    obtain ⟨hlt, hget⟩ := List.getElem?_eq_some_iff.mp (hplace i hi)
    obtain ⟨hlt', hget'⟩ := List.getElem?_eq_some_iff.mp hj
    exact (h.right.objects shape t' hfound'.table).keys_nodup.getElem_inj_iff.mp (hget.trans hget'.symm)
  -- Of the three forms on either side, only equal ones go together.
  rcases objectSlot_cases hshape hfound hexpected write site with
    ⟨hinline, i, hi, heq⟩ | ⟨hinline, hnot, heq⟩ | ⟨hinline, i, hi, heq⟩
  · rcases objectSlot_cases hshape' hfound' hexpected write' site' with
      ⟨-, j, hj, heq'⟩ | ⟨-, hnot', -⟩ | ⟨hplain, -⟩
    · obtain rfl := hsame hi hj
      rw [heq, heq']
      refine .bind (h.follows_tagToken (Tag.registered_builtin _ _)) fun marker _ =>
        .bind (.writeToken _ _ _ _) fun bytes _ => ?_
      rw [h.token_eq hslotTag]
      exact .refl _
    · exact absurd (List.mem_of_getElem? (hplace i hi)) hnot'
    · exact absurd (hinline.symm.trans hplain) Bool.true_eq_false.mp
  · rcases objectSlot_cases hshape' hfound' hexpected write' site' with
      ⟨-, j, hj, -⟩ | ⟨-, -, heq'⟩ | ⟨hplain, -⟩
    · exact absurd (List.mem_of_getElem? hj) (hnone hnot)
    · rw [heq, heq']
      exact .bind (h.follows_tagToken hregistered) fun marker _ =>
        .bind (hfields hinline s s' (h.survivor x y s s' hxy hrep hrep') hfound.shape_eq
          hfound'.rank_eq) fun _ _ => .refl _
    · exact absurd (hinline.symm.trans hplain) Bool.true_eq_false.mp
  · rcases objectSlot_cases hshape' hfound' hexpected write' site' with
      ⟨hplace', -⟩ | ⟨hplace', -⟩ | ⟨-, j, hj, heq'⟩
    · exact absurd (hinline.symm.trans hplace') Bool.false_ne_true
    · exact absurd (hinline.symm.trans hplace') Bool.false_ne_true
    · obtain rfl := hsame hi hj
      rw [heq, heq']
      exact .bind (h.follows_referenceToken hslotTag _ _ _) fun _ _ => .refl _

/-- Equal strings are at the same place, as both modules list the same strings in the same order. -/
theorem string_index {s : String} (hs : s ∈ m.strings.names) (hs' : s ∈ m'.strings.names) :
    ∃ index, m.strings.indexOf s = .ok index ∧ m'.strings.indexOf s = .ok index := by
  obtain ⟨i, hi, hkey⟩ := h.left.string hs
  obtain ⟨j, hj, hkey'⟩ := h.right.string hs'
  rw [h.strings] at hkey'
  obtain ⟨hlt, hget⟩ := List.getElem?_eq_some_iff.mp hkey
  obtain ⟨hlt', hget'⟩ := List.getElem?_eq_some_iff.mp hkey'
  obtain rfl : i = j := h.left.strings.keys_nodup.getElem_inj_iff.mp (hget.trans hget'.symm)
  exact ⟨i, hi, hj⟩

/-- Related arrays are at the same place, or rather those arrays are that survive for them. -/
theorem array_index (hxy : rel x y) (hx : (input.tree.array? x).isSome = true) :
    ∃ index, m.arrays.indexOf x = .ok index ∧ m'.arrays.indexOf y = .ok index := by
  obtain ⟨hnode, hnode'⟩ := h.hasNode x y hxy
  have hy : (other.array? y).isSome = true :=
    (h.corresponding x y hxy).isSome_array?_eq.trans hx
  obtain ⟨i, s, hi, hkey, hrep⟩ := h.left.array_index hx ((hasNode_array_iff hx).mp hnode)
  obtain ⟨j, s', hj, hkey', hrep'⟩ := h.right.array_index hy ((hasNode_array_iff hy).mp hnode')
  have hplace := (h.places h.arrays (fun _ hz => Or.inl hz) (fun _ hz => Or.inl hz) hxy hrep hrep').1 i hkey
  obtain ⟨hlt, hget⟩ := List.getElem?_eq_some_iff.mp hplace
  obtain ⟨hlt', hget'⟩ := List.getElem?_eq_some_iff.mp hkey'
  obtain rfl : i = j := h.right.arrays.keys_nodup.getElem_inj_iff.mp (hget.trans hget'.symm)
  exact ⟨i, hi, hj⟩

/-- Values that are alike are written alike under every tag that they are stored under. The cases
are the ways in which a value can be stored under a tag. Only objects need the assumption about
fields; scalars do not depend on the module at all, and strings and arrays depend on their index. -/
theorem follows_underTag {tag : Tag} {nullable : Bool}
    (hstored : Tag.Stored input.tree input.registry tag nullable left)
    (hregistered : tag.Registered input.registry)
    (hholds : m.Holds input.tree input.registry left)
    (hholds' : m'.Holds other input.registry right) (halike : Tree.Alike rel left right)
    (site site' : Site) {write write' : ShapeId → NodeId → Except Error (List Token)}
    (hfields : input.config.inlineObjects = true → ∀ d, right.node? = some d → ∀ shape s s', rel s s' →
      input.tree.shape? input.registry s = some shape → rank' s' = rank' d →
      Follows (write shape s) (write' shape s')) :
    Follows ((input.writer m).underTag write tag nullable site left)
      (((input.on other).writer m').underTag write' tag nullable site' right) := by
  -- What is alike to a value without a node is that value, so here the two sides are the same.
  cases hstored with
  | null | trueValue | falseValue =>
      cases halike
      exact .refl _
  | integer _ hpayload =>
      cases halike
      simp only [WriteInput.underTag, hpayload]
      rw [h.token_eq (Tag.registered_builtin _ .integer)]
      exact .refl _
  | double =>
      cases halike
      simp only [WriteInput.underTag]
      rw [h.token_eq (Tag.registered_builtin _ .double)]
      exact .refl _
  | string _ s =>
      cases halike
      obtain ⟨index, hindex, hindex'⟩ := h.string_index hholds hholds'
      simp only [WriteInput.underTag, hindex, hindex', Except.mapError, ok_bind]
      exact .bind (h.follows_referenceToken (Tag.registered_builtin _ .string) _ _ _) fun _ _ => .refl _
  | array _ id =>
      cases halike with
      | plain hnode => simp [Value.node?] at hnode
      | array hxy =>
          obtain ⟨index, hindex, hindex'⟩ := h.array_index hxy hholds.1
          simp only [WriteInput.underTag, hindex, hindex', Except.mapError, ok_bind]
          exact .bind (h.follows_referenceToken (Tag.registered_builtin _ .array) _ _ _)
            fun _ _ => .refl _
  | object _ hshape =>
      cases halike with
      | plain hnode => simp [Value.node?] at hnode
      | object hxy =>
          exact h.follows_objectSlot hxy hshape rfl _ _ fun hinline => hfields hinline _ rfl _
  | shape _ hshape =>
      cases halike with
      | plain hnode => simp [Value.node?] at hnode
      | object hxy =>
          exact h.follows_objectSlot hxy hshape (by simp) _ _ fun hinline => hfields hinline _ rfl _
  | absent hreference =>
      cases halike
      -- No value under a tag of references: which form this has depends on the tag alone.
      rcases tag with (_ | _) | shape
      case builtin.string | builtin.array =>
        exact .bind (h.follows_referenceToken (Tag.registered_builtin _ _) _ _ _) fun _ _ => .refl _
      case builtin.object => exact h.follows_nullObjectSlot (Tag.registered_builtin _ .object)
      case shape =>
        have hshape : (slotTag (some shape)).Registered input.registry := hregistered
        exact h.follows_nullObjectSlot hshape
      all_goals simp [Tag.isReference] at hreference

/-- Values that are alike are written alike wherever they fit. A slot that may hold values of
several types has a tag in front of the value, and this is the runtime tag, which the two values
share. -/
theorem follows_slot {codec : Codec} (hfits : FitsSlot input m codec left)
    (hholds' : m'.Holds other input.registry right) (halike : Tree.Alike rel left right)
    (site site' : Site) {write write' : ShapeId → NodeId → Except Error (List Token)}
    (hfields : input.config.inlineObjects = true → ∀ d, right.node? = some d → ∀ shape s s', rel s s' →
      input.tree.shape? input.registry s = some shape → rank' s' = rank' d →
      Follows (write shape s) (write' shape s')) :
    Follows ((input.writer m).slot write codec site left)
      (((input.on other).writer m').slot write' codec site' right) := by
  cases codec with
  | fixed tag nullable =>
      exact h.follows_underTag hfits.stored hfits.registered_fixed hfits.holds hholds' halike _ _ hfields
  | tagged decl =>
      obtain ⟨tag, htag, haccepts⟩ := hfits.tag
      have htag' := h.corresponding.tag_of halike htag
      -- The tag of a value that is held by the module is one of those in its tag table.
      obtain ⟨listed, hlisted, hmem⟩ := h.left.tag_mem hfits.holds
      obtain rfl : listed = tag := Except.ok.inj (hlisted.symm.trans htag)
      have hregistered := h.left.filled.tags.registered_of_mem hmem
      have haccepts : decl.accepts listed = true := haccepts
      simp only [WriteInput.slot, htag, htag', ok_bind, haccepts, Bool.not_true, Bool.false_eq_true,
        if_false]
      refine .bind (h.follows_tagToken hregistered) fun _ _ => .bind ?_ fun _ _ => .refl _
      exact h.follows_underTag (Tag.stored_of_holds htag
        (Tag.holds_self (Tag.isTerminal_of_of htag))) hregistered hfits.holds hholds' halike _ _ hfields

/-! ### Fields

Fields are written by a function that is given a depth, and so is the assumption that they are
written alike. A rank is at hand that goes down from an object to those in its slots; the induction
is on the depth that the first side has used, and the rank shows that the second side, which may
have been given another depth, does not run out of it. -/

/-- Fields are written alike if the fields of related objects with smaller numbers are, in case
objects are written in place. -/
theorem follows_fieldSlots (hr : input.registry.Valid) (hxy : rel x y)
    (hshape : input.tree.shape? input.registry x = some shape)
    {write write' : ShapeId → NodeId → Except Error (List Token)}
    (hfields : input.config.inlineObjects = true → ∀ own s s', rel s s' →
      input.tree.shape? input.registry s = some own → rank' s' < rank' y →
      Follows (write own s) (write' own s')) :
    Follows ((input.writer m).fieldSlots write shape x)
      (((input.on other).writer m').fieldSlots write' shape y) := by
  obtain ⟨hx, hy⟩ := h.hasNode x y hxy
  have hsame := h.corresponding x y hxy
  obtain ⟨object, hobject, hlookup⟩ := Tree.shape?_eq_some_iff.mp hshape
  obtain ⟨object', hobject', hlookup'⟩ := Tree.shape?_eq_some_iff.mp (hsame.shape?_eq.trans hshape)
  have hslots := hsame.slots
  have hslots' := Tree.slots_of_object hobject' hlookup'
  rw [Tree.slots_of_object hobject hlookup, hslots'] at hslots
  -- Related objects have alike values in their slots, that is to say field by field.
  have hvalues : ∀ field ∈ input.registry.fields shape,
      Tree.Alike rel (object.get field.name) (object'.get field.name) := by
    have hall := List.forall₂_map_right_iff.mp (List.forall₂_map_left_iff.mp hslots)
    exact List.forall₂_same.mp hall
  simp only [WriteInput.fieldSlots, Tree.requireObject_eq_ok.mpr hobject,
    Tree.requireObject_eq_ok.mpr hobject', ok_bind]
  refine .bind (.mapM (List.forall₂_same.mpr fun field hfield => ?_)) fun _ _ => .refl _
  have hmem : object'.get field.name ∈ other.slots input.registry y :=
    hslots' ▸ List.mem_map_of_mem hfield
  refine h.follows_slot (h.left.fits_field hr hx hobject hlookup hfield)
    ((h.right.complete y hy).slots _ hmem) (hvalues field hfield) _ _
    fun hinline d hd own s s' hss' hown hrank => ?_
  -- In place, a node is written within one of a greater number, which ends the descent.
  have hlt := (h.right.ranking hinline).child_lt y hy _ hmem d hd
  exact hfields hinline own s s' hss' hown (hrank ▸ hlt)

/-- The depth that the one side has used is enough for the other one if it exceeds the number
of the node. -/
theorem follows_fieldsWithin (hr : input.registry.Valid) (depth depth' : Nat) (hxy : rel x y)
    (hshape : input.tree.shape? input.registry x = some shape)
    (hdepth : input.config.inlineObjects = true → rank' y ≤ depth') :
    Follows ((input.writer m).fieldsWithin depth shape x)
      (((input.on other).writer m').fieldsWithin (depth' + 1) shape y) := by
  -- On depth zero the first side fails, and there is nothing to follow.
  induction depth generalizing depth' x y shape with
  | zero =>
      intro tokens htokens
      simp [WriteInput.fieldsWithin] at htokens
  | succ depth ih =>
      refine h.follows_fieldSlots hr hxy hshape fun hinline own s s' hss' hown hlt => ?_
      have hle := hdepth hinline
      obtain ⟨below, rfl⟩ : ∃ below, depth' = below + 1 := ⟨depth' - 1, by omega⟩
      exact ih below hss' hown fun _ => by omega

/-- The depth that each side starts with is the size of its tree, and no rank exceeds that. -/
theorem follows_objectFields (hr : input.registry.Valid) (hxy : rel x y)
    (hshape : input.tree.shape? input.registry x = some shape) :
    Follows ((input.writer m).objectFields shape x)
      (((input.on other).writer m').objectFields shape y) :=
  h.follows_fieldsWithin hr _ _ hxy hshape fun hinline =>
    Nat.le_of_lt ((h.right.ranking hinline).lt_size y (h.hasNode x y hxy).2)

/-! ### Sections

Each section is a count and then the entries of one table, so two sections are alike if the tables
have equally many entries and these are alike one by one. -/

/-- The entries of a table of objects: for each object its tag, and then its fields. -/
theorem follows_objectSection (hr : input.registry.Valid) {table table' : ObjectTable}
    (htable : table ∈ m.objects.tables) (htable' : table' ∈ m'.objects.tables)
    (hmatch : TablesMatch rel table table') :
    Follows ((input.writer m).objectSection table.table)
      (((input.on other).writer m').objectSection table'.table) := by
  obtain ⟨shape, ht, -⟩ := h.left.filled.wellShaped.exists_table? htable
  obtain ⟨shape', ht', -⟩ := h.right.filled.wellShaped.exists_table? htable'
  obtain ⟨order, horder, hlength, hkeys⟩ := (h.left.objects shape _ ht).exists_indexed
  obtain ⟨order', horder', hlength', hkeys'⟩ := (h.right.objects shape' _ ht').exists_indexed
  simp only [WriteInput.objectSection, horder, horder', Except.mapError, ok_bind, hkeys, hkeys']
  rw [hlength, hlength', hmatch.2.length_eq]
  refine .bind (.bind (.ofCount _ _ _) fun _ _ => .refl _) fun _ _ => .bind (.mapM ?_) fun _ _ => .refl _
  -- The entries face one another. That they are entries of their tables is needed to know their
  -- shapes.
  refine ((List.forall₂_and_left _ _).mpr ⟨fun _ hx => hx, hmatch.2⟩).imp fun x y hxy => ?_
  obtain ⟨hx, hxy⟩ := hxy
  obtain ⟨own, hown, -, hobject⟩ := h.left.object_of_mem_keys ht hx
  have hown' : other.shape? input.registry y = some own :=
    (h.corresponding x y hxy).shape?_eq.trans hown
  have hlisted := mem_tagsOf_shape.mpr (h.left.filled.mem_shapes own x hown hobject)
  simp only [Tree.shapeOf_eq_ok.mpr hown, Tree.shapeOf_eq_ok.mpr hown', ok_bind]
  exact .bind (h.follows_tagToken (h.left.filled.tags.registered_of_mem hlisted)) fun _ _ =>
    .bind (h.follows_objectFields hr hxy hown) fun _ _ => .refl _

/-- An array is written as the number of its elements, their tag, and the elements in slots of that
tag. Without elements there is no tag either. -/
theorem follows_arrayEntry (hr : input.registry.Valid) (hxy : rel x y)
    (hx : (input.tree.array? x).isSome = true) :
    Follows ((input.writer m).arrayEntry x) (((input.on other).writer m').arrayEntry y) := by
  obtain ⟨hnode, hnode'⟩ := h.hasNode x y hxy
  obtain ⟨elements, helements⟩ := Option.isSome_iff_exists.mp hx
  obtain ⟨others, hothers, hslots⟩ := (h.corresponding x y hxy).of_array helements
  have htag := elementTag?_of_complete h.corresponding hxy (h.left.complete x hnode)
    (h.right.complete y hnode') hx
  have hempty : others.isEmpty = elements.isEmpty := by cases hslots <;> rfl
  obtain ⟨tag, hget, hlisted, hfits⟩ := h.left.fits_elements hnode helements
  simp only [WriteInput.arrayEntry, Tree.requireArray_eq_ok.mpr helements,
    Tree.requireArray_eq_ok.mpr hothers, ok_bind, htag, hget, hempty, ← hslots.length_eq]
  cases elements.isEmpty with
  | true =>
      rw [if_pos rfl, if_pos rfl]
      exact .refl _
  | false =>
      refine .bind (h.follows_tagToken (h.left.filled.tags.registered_of_mem hlisted)) fun _ _ =>
        .bind (.mapM ?_) fun _ _ => .refl _
      have hall := (List.forall₂_and_left elements others).mpr ⟨fun _ hvalue => hvalue, hslots⟩
      -- An element is alike to its counterpart, and each of them is in its own array.
      have hboth := (List.forall₂_and_left others elements).mpr ⟨fun _ hvalue => hvalue, hall.flip⟩
      refine hboth.flip.imp fun left right hvalues => ?_
      obtain ⟨hright, hleft, halike⟩ := hvalues
      have hholds' := (h.right.complete y hnode').slots right (by rwa [Tree.slots_of_array hothers])
      exact h.follows_slot (hfits left hleft) hholds' halike _ _
        fun _ _ _ shape s s' hss' hown _ => h.follows_objectFields hr hss' hown

/-- All arrays, in the order of their indices. -/
theorem follows_arraySection (hr : input.registry.Valid) :
    Follows (input.writer m).arraySection ((input.on other).writer m').arraySection := by
  obtain ⟨order, horder, hlength, hkeys⟩ := h.left.arrays.exists_indexed
  obtain ⟨order', horder', hlength', hkeys'⟩ := h.right.arrays.exists_indexed
  simp only [WriteInput.arraySection, horder, horder', Except.mapError, ok_bind, hkeys, hkeys']
  rw [hlength, hlength', h.arrays.length_eq]
  refine .bind (.bind (.ofCount _ _ _) fun _ _ => .refl _) fun _ _ => .bind (.mapM ?_) fun _ _ => .refl _
  refine ((List.forall₂_and_left _ _).mpr ⟨fun _ hx => hx, h.arrays⟩).imp fun x y hxy => ?_
  exact h.follows_arrayEntry hr hxy.2 (h.left.array_of_mem_keys hxy.1).1

/-- The root is in a slot of any type. -/
theorem follows_rootSection (hr : input.registry.Valid) :
    Follows (input.writer m).rootSection ((input.on other).writer m').rootSection := by
  have hroot : Tree.Alike rel m.root m'.root := by
    rw [h.left.root_eq, h.right.root_eq]
    exact h.root
  have hholds : m'.Holds other input.registry m'.root := by
    rw [h.right.root_eq]
    exact h.right.root
  exact h.follows_slot h.left.fits_root hholds hroot _ _
    fun _ _ _ shape s s' hss' hown _ => h.follows_objectFields hr hss' hown

/-- Both modules have the built-in tags and then those of the same shapes in their tag tables. -/
theorem tagSection_eq :
    ((input.on other).writer m').tagSection = (input.writer m).tagSection := by
  rw [h.left.tags.tagSection_eq (show (input.writer m).module = m from rfl),
    h.right.tags.tagSection_eq (show ((input.on other).writer m').module = m' from rfl)]

/-- The strings are the same, and in the same order. -/
theorem stringSection_eq :
    ((input.on other).writer m').stringSection = (input.writer m).stringSection := by
  obtain ⟨order, horder, hlength, hkeys⟩ := h.left.strings.exists_indexed
  obtain ⟨order', horder', hlength', hkeys'⟩ := h.right.strings.exists_indexed
  simp only [WriteInput.stringSection, horder, horder', Except.mapError, ok_bind, hkeys, hkeys']
  rw [hlength, hlength', h.strings]

/-! ### The module

The directory and the frames are all that is left. Both depend on the tables by the number of
their entries and, if tables are partitioned, by the tags of their shapes. -/

/-- Matching tables have the same number of entries. -/
theorem follows_tableCount {table table' : ObjectTable} (htable : table ∈ m.objects.tables)
    (htable' : table' ∈ m'.objects.tables) (hmatch : TablesMatch rel table table') :
    Follows (WriteInput.tableCount table.table) (WriteInput.tableCount table'.table) := by
  obtain ⟨shape, ht, -⟩ := h.left.filled.wellShaped.exists_table? htable
  obtain ⟨shape', ht', -⟩ := h.right.filled.wellShaped.exists_table? htable'
  obtain ⟨order, horder, hlength, -⟩ := (h.left.objects shape _ ht).exists_indexed
  obtain ⟨order', horder', hlength', -⟩ := (h.right.objects shape' _ ht').exists_indexed
  simp only [WriteInput.tableCount, horder, horder', Except.mapError, ok_bind]
  rw [hlength, hlength', hmatch.2.length_eq]
  exact .ofCount _ _ _

/-- Tables that correspond are in both modules. What is known of the tables of a module can so be
used where two of them are compared. -/
theorem tables_of_mem {motive : ObjectTable → ObjectTable → Prop}
    (hmotive : ∀ table ∈ m.objects.tables, ∀ table' ∈ m'.objects.tables,
      TablesMatch rel table table' → motive table table') :
    List.Forall₂ motive m.objects.tables m'.objects.tables := by
  have hleft := (List.forall₂_and_left m.objects.tables m'.objects.tables).mpr
    ⟨fun _ htable => htable, h.objects⟩
  have hboth := (List.forall₂_and_left m'.objects.tables m.objects.tables).mpr
    ⟨fun _ htable => htable, hleft.flip⟩
  exact hboth.flip.imp fun table table' hall => hmotive table hall.2.1 table' hall.1 hall.2.2

/-- The directory of objects lists the tables with their shapes, or has one count for the only
table. -/
theorem follows_directoryObjects :
    Follows (input.writer m).directoryObjects ((input.on other).writer m').directoryObjects := by
  have hlength := h.objects.length_eq
  cases hp : input.config.partitionedTables with
  | true =>
      have hwire : input.config.wire.partitionedTables = true := hp
      simp only [WriteInput.directoryObjects, hwire, if_true, hlength]
      refine .bind (.refl _) fun _ _ => .bind (.mapM ?_) fun _ _ => .refl _
      refine h.tables_of_mem fun table htable table' htable' hmatch => ?_
      obtain ⟨shape, hmem, hshape⟩ :=
        h.left.mem_shapes_of_table (h.left.partitioned.trans hp) htable
      have hregistered := h.left.filled.tags.registered_of_mem (mem_tagsOf_shape.mpr hmem)
      simp only [WriteInput.directoryTable, hmatch.1, hshape, WriteInput.slotTag, Option.elim_some]
      refine .bind (fun index hindex => ?_) fun _ _ =>
        .bind (h.follows_tableCount htable htable' hmatch) fun _ _ => .refl _
      rw [mapError_eq_ok] at hindex ⊢
      exact (h.tagIndex_iff hregistered index).mpr hindex
  | false =>
      have hwire : input.config.wire.partitionedTables = false := hp
      simp only [WriteInput.directoryObjects, hwire, Bool.false_eq_true, if_false]
      have hall := h.tables_of_mem fun _ htable _ htable' => h.follows_tableCount htable htable'
      -- Without partitions the first table is the only one, if there is one at all.
      generalize m.objects.tables = tables at hall
      generalize m'.objects.tables = tables' at hall
      cases hall with
      | nil => exact .refl _
      | cons hcount _ => exact hcount

/-- The numbers of tags, strings and arrays, and then the directory of objects. -/
theorem follows_directory :
    Follows (input.writer m).directory ((input.on other).writer m').directory := by
  have htags : m'.tags.size = m.tags.size := h.right.tags.size.trans h.left.tags.size.symm
  have hstrings : m'.strings.size = m.strings.size := by
    rw [← h.right.string_count, ← h.left.string_count, h.strings]
  have harrays : m'.arrays.size = m.arrays.size := by
    rw [← h.right.array_count, ← h.left.array_count, h.arrays.length_eq]
  simp only [WriteInput.directory, htags, hstrings, harrays]
  exact .bind (.refl _) fun _ _ => .bind (.refl _) fun _ _ => .bind (.refl _) fun _ _ =>
    .bind h.follows_directoryObjects fun _ _ => .refl _

/-- The frames around the object tables. Their bodies have been written by now and are the same on
both sides; the labels are not, but they count only where a frame fails. -/
theorem follows_frames (bodies : List (List UInt8)) :
    Follows (((m.objects.tables.map (·.table)).zip bodies).mapM fun (table, bytes) =>
        WriteInput.frame table.label bytes)
      (((m'.objects.tables.map (·.table)).zip bodies).mapM fun (table, bytes) =>
        WriteInput.frame table.label bytes) := by
  have hobjects := h.objects
  generalize m.objects.tables = tables at hobjects
  generalize m'.objects.tables = tables' at hobjects
  refine .mapM ?_
  induction hobjects generalizing bodies with
  | nil => exact .nil
  | cons _ _ ih =>
      cases bodies with
      | nil => exact .nil
      | cons body bodies => exact .cons (.frame _ _ body) (ih bodies)

/-- Whatever one of the modules is written as, the other one is written as, too. The sections come
in the order in which they are put together, each with the lemma about it. -/
theorem follows_bytes (hr : input.registry.Valid) :
    Follows (input.writer m).bytes ((input.on other).writer m').bytes := by
  have htables : List.Forall₂ (fun table table' : UniqueTable NodeId =>
      Follows ((input.writer m).objectSection table) (((input.on other).writer m').objectSection table'))
      (m.objects.tables.map (·.table)) (m'.objects.tables.map (·.table)) :=
    List.forall₂_map_left_iff.mpr (List.forall₂_map_right_iff.mpr
      (h.tables_of_mem fun _ htable _ htable' => h.follows_objectSection hr htable htable'))
  unfold WriteInput.bytes
  rw [h.tagSection_eq, h.stringSection_eq]
  exact .bind h.follows_directory fun _ _ => .bind (.refl _) fun _ _ => .bind (.refl _) fun _ _ =>
    .bind (.refl _) fun _ _ => .bind (.refl _) fun _ _ => .bind (.mapM htables) fun _ _ =>
    .bind (h.follows_arraySection hr) fun _ _ => .bind (h.follows_rootSection hr) fun _ _ =>
    .bind (.refl _) fun _ _ => .bind (h.follows_frames _) fun _ _ => .bind (.refl _) fun _ _ =>
    .bind (.refl _) fun _ _ => .refl _

end Mirrors

end Module

end SyntaxPack
