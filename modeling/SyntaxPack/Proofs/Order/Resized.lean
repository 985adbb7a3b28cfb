import SyntaxPack.Proofs.Order.Positions
import SyntaxPack.Proofs.RoundTrip.Reencoded
/-!
# SyntaxPack.Proofs.Order.Resized

A module with its tables in another order.

Two modules of one walk that differ in the order of their tables are written as tokens that
correspond one to one: `Resized` says that they belong to the same streams and that their
sizes differ by what the references in them cost. It holds of slots, of entries and, as entries
only change places, of sections.

The values that were written are an argument of `Resized`, since what references cost is counted
over them. They are the same in both modules, so when sections are put together the difference of
their sizes becomes a sum over the values that the walk has met, and nothing need be known about
where in the module a reference stands.

Objects in place are left out. Where the order goes by the number of uses, which objects are in
place does not change, but what is in place is written again for each use, and the cost would have
to be counted along with that.
-/

namespace SyntaxPack

open Token (allBytes)

/-- Wherever two programs both succeed, their results are related. Whether they succeed is not said,
and one of them may fail where the other does not. -/
def Jointly {α β : Type} (rel : α → β → Prop) (x : Except Error α) (y : Except Error β) : Prop :=
  ∀ a b, x = .ok a → y = .ok b → rel a b

namespace Jointly

variable {α β γ δ : Type} {rel : α → β → Prop} {rel' : γ → δ → Prop}

theorem ok {a : α} {b : β} (h : rel a b) : Jointly rel (.ok a) (.ok b) := by
  rintro _ _ ⟨⟩ ⟨⟩
  exact h

theorem bind {x : Except Error α} {y : Except Error β} {f : α → Except Error γ}
    {g : β → Except Error δ} (h : Jointly rel x y) (hrest : ∀ a b, rel a b → Jointly rel' (f a) (g b)) :
    Jointly rel' (x >>= f) (y >>= g) := by
  intro c d hc hd
  obtain ⟨a, ha, hfa⟩ := bind_eq_ok.mp hc
  obtain ⟨b, hb, hgb⟩ := bind_eq_ok.mp hd
  exact hrest a b (h a b ha hb) c d hfa hgb

/-- What begins with the same step. -/
theorem same {x : Except Error α} {f : α → Except Error γ} {g : α → Except Error δ}
    (h : ∀ a, Jointly rel' (f a) (g a)) : Jointly rel' (x >>= f) (x >>= g) := by
  intro c d hc hd
  obtain ⟨a, ha, hfa⟩ := bind_eq_ok.mp hc
  obtain ⟨b, hb, hgb⟩ := bind_eq_ok.mp hd
  obtain rfl := Except.ok.inj (ha.symm.trans hb)
  exact h a c d hfa hgb

end Jointly

namespace Module

open WriteInput (slotTag)

/-! ### The walk

The configuration is handed to the walk, which does not look at the order of the tables. So both
modules come from the same walk. -/

namespace WalkInput

variable (input : WalkInput) (hits : Bool)

/-- The same encoder with or without an order by the number of uses. -/
abbrev ordered : WalkInput := { input with config := { input.config with orderByHitCount := hits } }

theorem checkField_ordered : (input.ordered hits).checkField = input.checkField :=
  checkField_config ..

variable (visit : Value → WalkState → Except Error WalkState)

theorem visitElements_ordered (values : List Value) (state : WalkState) :
    (input.ordered hits).visitElements visit values state = input.visitElements visit values state := by
  induction values generalizing state with
  | nil => rfl
  | cons value values ih =>
      simp only [visitElements, ih]
      rfl

theorem visitFields_ordered (shape : String) (object : Object) (fields : List Field)
    (state : WalkState) : (input.ordered hits).visitFields visit shape object fields state =
      input.visitFields visit shape object fields state := by
  induction fields generalizing state with
  | nil => rfl
  | cons field fields ih => simp only [visitFields, checkField_ordered, ih]

theorem visit_ordered (depth : Nat) : (input.ordered hits).visit depth = input.visit depth := by
  induction depth with
  | zero => rfl
  | succ depth ih =>
      funext value state
      simp only [WalkInput.visit, ih]
      cases value with
      | null | boolean _ | number _ | string _ => rfl
      | array id =>
          simp only [visitValue, visitElements_ordered]
          rfl
      | object id =>
          simp only [visitValue, visitFields_ordered]
          rfl

/-- A walk does not depend on the order that the tables will have. -/
theorem walk_ordered : (input.ordered hits).walk = input.walk := by
  simp only [walk, visit_ordered]
  rfl

end WalkInput

/-! ### Tokens

Sizes are compared crosswise: what the one module has, and what the references of the other cost, is
what the other has and what the references of the one cost. So no difference has to be formed. -/

variable {input input' : WalkInput} {values values' : List Value} {ts ts' us us' : List Token}

/-- The number of bytes of a reference to what a value refers to, none if it stands for itself. -/
def Trace.cost (w : Trace input) (value : Value) : Nat :=
  (w.position? value).elim 0 fun i => input.config.indexEncoding.tokenSize (i + 1)

/-- Tokens that are written for the same values in two modules. They are in the same streams, as
often, and they differ in size by the references of the values. -/
structure Resized (w : Trace input) (w' : Trace input') (values : List Value) (ts ts' : List Token) :
    Prop where
  streams : (ts.map (·.stream)).Perm (ts'.map (·.stream))
  size : (allBytes ts).length + (values.map w'.cost).sum =
    (allBytes ts').length + (values.map w.cost).sum

namespace Resized

variable {w : Trace input} {w' : Trace input'}

theorem refl (ts : List Token) : Resized w w' [] ts ts := ⟨.refl _, rfl⟩

theorem append (h : Resized w w' values ts ts') (h' : Resized w w' values' us us') :
    Resized w w' (values ++ values') (ts ++ us) (ts' ++ us') := by
  refine ⟨?_, ?_⟩
  · rw [List.map_append, List.map_append]
    exact h.streams.append h'.streams
  · have hsize := h.size
    have hsize' := h'.size
    simp only [Token.allBytes_append, List.length_append, List.map_append, List.sum_append]
    omega

theorem cons (token : Token) (h : Resized w w' values ts ts') :
    Resized w w' values (token :: ts) (token :: ts') :=
  (refl [token]).append h

theorem perm (h : Resized w w' values ts ts') (hvalues : values.Perm values') (hts : ts'.Perm us') :
    Resized w w' values' ts us' := by
  refine ⟨h.streams.trans (hts.map _), ?_⟩
  rw [← (hvalues.map w'.cost).sum_eq, ← (hvalues.map w.cost).sum_eq, h.size]
  exact congrArg (· + _) (hts.flatMap_right _).length_eq

theorem perm_values (h : Resized w w' values ts ts') (hvalues : values.Perm values') :
    Resized w w' values' ts ts' :=
  h.perm hvalues (.refl _)

/-- The parts of two sections, in whatever orders they stand. The entries of the one are rearranged
to those of the other, which changes neither streams nor sizes. -/
theorem mapM {α : Type} {written : α → List Value} {f g : α → Except Error (List Token)}
    {xs ys : List α} (hperm : xs.Perm ys)
    (h : ∀ x ∈ xs, Jointly (Resized w w' (written x)) (f x) (g x)) :
    Jointly (fun parts parts' => Resized w w' (xs.flatMap written) parts.flatten parts'.flatten)
      (xs.mapM f) (ys.mapM g) := by
  intro parts parts' hparts hparts'
  -- The parts of the second section, in the order of the first.
  obtain ⟨middle, hmiddle, hrest⟩ := List.perm_comp_forall₂ hperm (mapM_eq_ok.mp hparts')
  have hall := mapM_eq_ok.mp hparts
  suffices Resized w w' (xs.flatMap written) parts.flatten middle.flatten from
    this.perm (.refl _) hrest.flatten
  clear hparts hparts' hrest hperm
  induction hall generalizing middle with
  | nil =>
      cases hmiddle
      exact refl []
  | @cons x part xs parts hpart _ ih =>
      cases hmiddle with
      | @cons _ part' _ middle hpart' hmiddle =>
          have hhead := h x List.mem_cons_self part part' hpart hpart'
          exact hhead.append (ih (fun z hz => h z (List.mem_cons_of_mem x hz)) middle hmiddle)

/-- Values that are written one after another. -/
theorem mapM_values {f g : Value → Except Error (List Token)}
    (h : ∀ value ∈ values, Jointly (Resized w w' [value]) (f value) (g value)) :
    Jointly (fun parts parts' => Resized w w' values parts.flatten parts'.flatten)
      (values.mapM f) (values.mapM g) := by
  have hall := mapM (.refl values) h
  rwa [List.flatMap_singleton'] at hall

end Resized

/-! ### Slots

The same value is written under the same tag on both sides. Only references differ, and each of them
by what it costs. -/

/-- Two walks of one tree whose modules differ in the order of their tables. -/
structure Reordered {hits : Bool} (w : Trace input) (w' : Trace (input.ordered hits)) : Prop where
  valid : input.registry.Valid
  inline : input.config.inlineObjects = false
  module : w'.module = w.module

namespace Reordered

variable {hits : Bool} {w : Trace input} {w' : Trace (input.ordered hits)} {id : NodeId}
  {shape : ShapeId} {value : Value} {tag : Tag} {nullable : Bool} {codec : Codec}
  {write write' : ShapeId → NodeId → Except Error (List Token)} (h : Reordered w w')
include h

theorem hasNode_iff : w'.HasNode id ↔ w.HasNode id := by rw [Trace.HasNode, h.module]

theorem mem_log_iff : value ∈ w'.log ↔ value ∈ w.log := by
  rw [w.mem_log, w'.mem_log]
  simp only [h.hasNode_iff]

theorem tagIndex_eq : w'.finalized.tagIndex input.registry tag =
    w.finalized.tagIndex input.registry tag := by
  rw [Trace.finalized, h.module]
  rfl

theorem token_eq (bytes : List UInt8) : w'.writer.token tag bytes = w.writer.token tag bytes := by
  simp only [WriteInput.token, h.tagIndex_eq]

theorem tagToken_eq : w'.writer.tagToken tag = w.writer.tagToken tag := by
  simp only [WriteInput.tagToken, h.tagIndex_eq, h.token_eq]
  rfl

/-- References differ in their sizes only, and these are what `cost` says of the value. -/
theorem resized_reference {label label' : String} {i i' : Option Nat}
    (hcost : input.config.indexEncoding.tokenSize (i.elim 0 (· + 1)) + w'.cost value =
      input.config.indexEncoding.tokenSize (i'.elim 0 (· + 1)) + w.cost value) :
    Jointly (Resized w w' [value]) (do .ok [← w.writer.referenceToken tag label i])
      (do .ok [← w'.writer.referenceToken tag label' i']) := by
  intro ts ts' hts hts'
  obtain ⟨token, htoken, h₁⟩ := bind_eq_ok.mp hts
  obtain ⟨bytes, hbytes, h₂⟩ := bind_eq_ok.mp htoken
  obtain ⟨token', htoken', h₁'⟩ := bind_eq_ok.mp hts'
  obtain ⟨bytes', hbytes', h₂'⟩ := bind_eq_ok.mp htoken'
  obtain rfl := Except.ok.inj h₁
  obtain rfl := Except.ok.inj h₂
  obtain rfl := Except.ok.inj h₁'
  obtain rfl := Except.ok.inj h₂'
  have hsize := IndexEncoding.length_of_writeToken (mapError_eq_ok.mp hbytes)
  have hsize' := IndexEncoding.length_of_writeToken (mapError_eq_ok.mp hbytes')
  have hone : ∀ (writer : WriteInput) bytes, allBytes [writer.token tag bytes] = bytes :=
    fun writer bytes => List.append_nil bytes
  refine ⟨?_, ?_⟩
  · rw [h.token_eq]
    exact .refl _
  · rw [hone, hone, List.map_singleton, List.map_singleton, List.sum_singleton, List.sum_singleton,
      hsize, hsize']
    exact hcost

/-- A value has a position in both modules or in neither. -/
theorem isSome_position?_eq : (w'.position? value).isSome = (w.position? value).isSome := by
  cases value with
  | null | boolean _ | number _ | string _ | array _ => rfl
  | object id =>
      simp only [Trace.position?, Trace.finalized, h.module, Option.isSome_map]
      cases input.tree.shape? input.registry id with
      | none => rfl
      | some shape => simp only [Option.bind_some, table?_finalize, Option.isSome_map]

/-- An absent reference is the same in both modules. -/
theorem resized_nullObjectSlot (expected : Option ShapeId) :
    Jointly (Resized w w' [.null]) (w.writer.nullObjectSlot expected)
      (w'.writer.nullObjectSlot expected) := by
  have hwire : input.config.wire.inlineObjects = false := h.inline
  have hwire' : (input.ordered hits).config.wire.inlineObjects = false := h.inline
  simp only [WriteInput.nullObjectSlot, hwire, hwire']
  exact h.resized_reference rfl

/-- A value is written as the same tokens, apart from the size of a reference. If the value has a
position it is a reference to it; otherwise the tokens are equal. -/
theorem resized_underTag (hvalue : value ∈ w.log)
    (hstored : Tag.Stored input.tree input.registry tag nullable value) (site : Site) :
    Jointly (Resized w w' [value]) (w.writer.underTag write tag nullable site value)
      (w'.writer.underTag write' tag nullable site value) := by
  have hposition : (w'.position? value).isSome = (w.position? value).isSome := h.isSome_position?_eq
  cases hi : w.position? value with
  | some i =>
      rw [hi] at hposition
      obtain ⟨i', hi'⟩ := Option.isSome_iff_exists.mp hposition
      obtain ⟨label, heq⟩ := w.underTag_eq h.valid h.inline hvalue hstored hi site
      obtain ⟨label', heq'⟩ :=
        w'.underTag_eq h.valid h.inline (h.mem_log_iff.mpr hvalue) hstored hi' site
      rw [heq, heq']
      refine h.resized_reference ?_
      rw [Trace.cost, Trace.cost, hi, hi']
      exact Nat.add_comm _ _
  -- What has no position is a value that stands for itself, or null under the tag of a reference.
  | none =>
      have hplain : ∀ ts, w.cost value = 0 → w'.cost value = 0 → Resized w w' [value] ts ts :=
        fun ts hcost hcost' => ⟨.refl _, by simp [hcost, hcost']⟩
      cases hstored with
      | null | trueValue | falseValue => exact .ok (hplain [] rfl rfl)
      | integer _ hpayload =>
          simp only [WriteInput.underTag, hpayload, h.token_eq]
          exact .ok (hplain _ rfl rfl)
      | double =>
          simp only [WriteInput.underTag, h.token_eq]
          exact .ok (hplain _ rfl rfl)
      | string | array => simp [Trace.position?] at hi
      | object _ hshape | shape _ hshape =>
          obtain ⟨own, hown, t, ht, -⟩ := w.holds_finalized hvalue
          simp [Trace.position?, hown, ht] at hi
      | absent hreference =>
          cases tag with
          | shape id => exact h.resized_nullObjectSlot _
          | builtin b =>
              cases b with
              | string | array => exact h.resized_reference rfl
              | object => exact h.resized_nullObjectSlot _
              | _ => simp [Tag.isReference] at hreference

/-- A slot is the tag, if it is not fixed, and the value. The tag is the same in both modules, for
tags are not put into another order. -/
theorem resized_slot (hvalue : value ∈ w.log) (hfits : FitsSlot input w.finalized codec value)
    (site : Site) : Jointly (Resized w w' [value]) (w.writer.slot write codec site value)
      (w'.writer.slot write' codec site value) := by
  cases codec with
  | fixed tag nullable => exact h.resized_underTag hvalue hfits.stored site
  | tagged decl =>
      obtain ⟨tag, htag, haccepts⟩ := hfits.tag
      have haccepts : decl.accepts tag = true := haccepts
      have hstored : Tag.Stored input.tree input.registry tag false value :=
        Tag.stored_of_holds htag (Tag.holds_self (Tag.isTerminal_of_of htag))
      simp only [WriteInput.slot, htag, ok_bind, haccepts, Bool.not_true, Bool.false_eq_true,
        if_false, h.tagToken_eq]
      exact .same fun marker => (h.resized_underTag hvalue hstored site).bind
        fun _ _ hrest => .ok (hrest.cons marker)

/-! ### Entries

An entry is a count or a tag that is the same on both sides, and slots. -/

omit h in
/-- Whatever is written of a node is met. -/
theorem mem_log_of_slots (hid : w.HasNode id) (hvalue : value ∈ input.tree.slots input.registry id) :
    value ∈ w.log :=
  w.mem_log.mpr (Or.inr ⟨id, hid, hvalue⟩)

theorem resized_fieldSlots (hid : w.HasNode id)
    (hshape : input.tree.shape? input.registry id = some shape) :
    Jointly (Resized w w' (input.tree.slots input.registry id)) (w.writer.fieldSlots write shape id)
      (w'.writer.fieldSlots write' shape id) := by
  obtain ⟨object, hobject, hlookup⟩ := Tree.shape?_eq_some_iff.mp hshape
  have hslots := Tree.slots_of_object hobject hlookup
  have hvalues : input.tree.slots input.registry id =
      (input.registry.fields shape).flatMap fun field => [object.get field.name] := by
    rw [hslots, Tree.declaredValues, List.map_eq_flatMap]
  simp only [WriteInput.fieldSlots, Tree.requireObject_eq_ok.mpr hobject, ok_bind]
  rw [hvalues]
  refine (Resized.mapM (.refl _) fun field hfield => ?_).bind fun _ _ hall => .ok hall
  have hmem : object.get field.name ∈ input.tree.slots input.registry id :=
    hslots ▸ List.mem_map_of_mem hfield
  exact h.resized_slot (mem_log_of_slots hid hmem) ((w.located h.valid).fits_field h.valid
    (w.hasNode_finalized.mpr hid) hobject hlookup hfield) _

theorem resized_arrayEntry (hid : w.HasNode id)
    (harray : (input.tree.array? id).isSome = true) :
    Jointly (Resized w w' (input.tree.slots input.registry id)) (w.writer.arrayEntry id)
      (w'.writer.arrayEntry id) := by
  obtain ⟨elements, helements⟩ := Option.isSome_iff_exists.mp harray
  have hslots : input.tree.slots input.registry id = elements := Tree.slots_of_array helements
  obtain ⟨tag, hget, -, hfits⟩ :=
    (w.located h.valid).fits_elements (w.hasNode_finalized.mpr hid) helements
  have hget' : w'.finalized.elementTag? id = some tag := by
    rw [Trace.finalized, h.module]
    exact hget
  simp only [WriteInput.arrayEntry, Tree.requireArray_eq_ok.mpr helements, ok_bind, hget, hget',
    h.tagToken_eq]
  rw [hslots]
  split
  · rename_i hempty
    rw [List.isEmpty_iff.mp hempty]
    exact .ok (.refl _)
  · have hvalues : ∀ value ∈ elements, Jointly (Resized w w' [value])
        (w.writer.slot w.writer.objectFields (.ofElement tag input.config.partitionedTables)
          (.element id.index) value)
        (w'.writer.slot w'.writer.objectFields (.ofElement tag input.config.partitionedTables)
          (.element id.index) value) := fun value hvalue =>
      h.resized_slot (mem_log_of_slots hid (hslots ▸ hvalue)) (hfits value hvalue) _
    exact .same fun marker => (Resized.mapM_values hvalues).bind
      fun _ _ hall => .ok ((hall.cons marker).cons _)

/-! ### Sections

The tables list the same nodes in different orders, so their entries are the same up to the order.
-/

omit h in
/-- A section is a count followed by its entries, in whatever orders they stand. -/
theorem resized_section {label label' : String} {keys keys' : List NodeId}
    {f g : NodeId → Except Error (List Token)} (hkeys : keys.Perm keys')
    (hentry : ∀ id ∈ keys,
      Jointly (Resized w w' (input.tree.slots input.registry id)) (f id) (g id)) :
    Jointly (Resized w w' (keys.flatMap (input.tree.slots input.registry)))
      (do
        let count ← WriteInput.countToken label keys.length
        let entries ← keys.mapM f
        .ok (count :: entries.flatten))
      (do
        let count ← WriteInput.countToken label' keys'.length
        let entries ← keys'.mapM g
        .ok (count :: entries.flatten)) := by
  have hcount : Jointly Eq (WriteInput.countToken label keys.length)
      (WriteInput.countToken label' keys'.length) := by
    rw [hkeys.length_eq]
    intro token token' htoken htoken'
    have hsame := Follows.bind (Follows.ofCount label label' keys'.length)
      (fun bytes _ => Follows.refl (pure (WriteInput.plain bytes)))
    exact Except.ok.inj ((hsame token htoken).symm.trans htoken')
  refine hcount.bind fun count _ heq => heq ▸ (Resized.mapM hkeys hentry).bind fun _ _ hall => ?_
  exact .ok (hall.cons count)

theorem resized_objectSection {table table' : ObjectTable} (htable : table ∈ w.finalized.objects.tables)
    (htable' : table' ∈ w'.finalized.objects.tables) (hkeys : table.table.keys.Perm table'.table.keys) :
    Jointly (Resized w w' (table.table.keys.flatMap (input.tree.slots input.registry)))
      (w.writer.objectSection table.table) (w'.writer.objectSection table'.table) := by
  have hb := w.located h.valid
  have hb' : Located (input.ordered hits) w'.shapes w'.rank w'.finalized := w'.located h.valid
  obtain ⟨shape, ht, -⟩ := hb.filled.wellShaped.exists_table? htable
  obtain ⟨shape', ht', -⟩ := hb'.filled.wellShaped.exists_table? htable'
  obtain ⟨order, horder, hlength, hlisted⟩ := (hb.objects shape _ ht).exists_indexed
  obtain ⟨order', horder', hlength', hlisted'⟩ := (hb'.objects shape' _ ht').exists_indexed
  simp only [WriteInput.objectSection, horder, horder', Except.mapError, ok_bind, hlisted, hlisted',
    hlength, hlength']
  refine resized_section hkeys fun id hid => ?_
  obtain ⟨own, hown, -, hobject⟩ := hb.object_of_mem_keys ht hid
  have hnode := w.hasNode_finalized.mp ((hasNode_object_iff hown).mpr hobject)
  simp only [Tree.shapeOf_eq_ok.mpr hown, ok_bind, h.tagToken_eq]
  exact .same fun marker => (h.resized_fieldSlots hnode hown).bind
    fun _ _ hfields => .ok (hfields.cons marker)

theorem keys_arrays_perm : w.finalized.arrays.keys.Perm w'.finalized.arrays.keys := by
  rw [Trace.finalized, Trace.finalized, h.module]
  exact Table.keys_finalize_perm w.walked.gathered.building.arrays _ _ _

theorem resized_arraySection :
    Jointly (Resized w w' (w.finalized.arrays.keys.flatMap (input.tree.slots input.registry)))
      w.writer.arraySection w'.writer.arraySection := by
  have hb := w.located h.valid
  obtain ⟨order, horder, hlength, hlisted⟩ := hb.arrays.exists_indexed
  obtain ⟨order', horder', hlength', hlisted'⟩ := (w'.located h.valid).arrays.exists_indexed
  simp only [WriteInput.arraySection, horder, horder', Except.mapError, ok_bind, hlisted, hlisted',
    hlength, hlength']
  refine resized_section h.keys_arrays_perm fun id hid => ?_
  obtain ⟨harray, hnode⟩ := hb.array_of_mem_keys hid
  exact h.resized_arrayEntry (w.hasNode_finalized.mp hnode) harray

theorem resized_rootSection :
    Jointly (Resized w w' [input.tree.root]) w.writer.rootSection w'.writer.rootSection := by
  have hb := w.located h.valid
  have hroot : w'.finalized.root = w.finalized.root := by
    rw [Trace.finalized, h.module]
    rfl
  have hlog : w.finalized.root ∈ w.log := w.mem_log.mpr (Or.inl hb.root_eq)
  simp only [WriteInput.rootSection, hroot]
  rw [← hb.root_eq]
  exact h.resized_slot hlog hb.fits_root .root

end Reordered

end Module

end SyntaxPack
