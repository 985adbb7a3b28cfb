import SyntaxPack.Proofs.Encode.Tokens
import SyntaxPack.Proofs.Encode.Trace
/-!
# SyntaxPack.Proofs.Order.Positions

References as positions in tables.

If nothing is merged and no object is written in place, every string and every node stands in
its table as itself, and a reference to it is its position there. So of all that a value is
written as, only this position depends on the order of the tables.
-/

namespace SyntaxPack

namespace Module

variable {input : WalkInput} {id : NodeId} {shape : ShapeId} {value : Value} {i : Nat}

theorem idxOf_eq_of_getElem? {α : Type} [DecidableEq α] {l : List α} {x : α} (hl : l.Nodup)
    (h : l[i]? = some x) : l.idxOf x = i := by
  obtain ⟨hi, rfl⟩ := List.getElem?_eq_some_iff.mp h
  exact hl.idxOf_getElem i hi

namespace Trace

variable (w : Trace input)

/-- What writes the module of a walk that nothing is merged after. -/
abbrev writer : WriteInput := input.writer w.finalized

/-- The position of what a value refers to, in the table that it stands in. -/
def position? : Value → Option Nat
  | .string s => some (w.finalized.strings.keys.idxOf s)
  | .array id => some (w.finalized.arrays.keys.idxOf id)
  | .object id =>
    ((input.tree.shape? input.registry id).bind w.finalized.objects.table?).map (·.keys.idxOf id)
  | .null | .boolean _ | .number _ => none

variable {w}

theorem holds_finalized (hvalue : value ∈ w.log) :
    w.finalized.Holds input.tree input.registry value :=
  (sameTables_finalize w.module input.tree input.registry _ _).grows.holds (w.holds_of_mem_log hvalue)

variable (hr : input.registry.Valid)
include hr

theorem indexOf_string {s : String} (hs : .string s ∈ w.log) :
    w.finalized.strings.indexOf s = .ok (w.finalized.strings.keys.idxOf s) := by
  have hb := w.located hr
  obtain ⟨index, hindex, hkey⟩ := hb.string (holds_finalized hs)
  rw [hindex, idxOf_eq_of_getElem? hb.strings.keys_nodup hkey]

theorem indexOf_array (hid : .array id ∈ w.log) :
    w.finalized.arrays.indexOf id = .ok (w.finalized.arrays.keys.idxOf id) := by
  have hb := w.located hr
  obtain ⟨harray, hmem⟩ := holds_finalized hid
  obtain ⟨index, survivor, hindex, hkey, hsurvivor, -, hrank⟩ := hb.array harray hmem
  obtain rfl := w.rank_inj (w.hasNode_finalized.mp hsurvivor) hrank
  rw [hindex, idxOf_eq_of_getElem? hb.arrays.keys_nodup hkey]

variable {write : ShapeId → NodeId → Except Error (List Token)} {expected : Option ShapeId}
  {tag : Tag} {nullable : Bool}

theorem objectSlot_eq (hinline : input.config.inlineObjects = false) (hid : .object id ∈ w.log)
    (hshape : input.tree.shape? input.registry id = some shape)
    (hexpected : expected.all (· = shape) = true) (hi : w.position? (.object id) = some i)
    (site : Site) : ∃ label, w.writer.objectSlot write expected site id =
      (do .ok [← w.writer.referenceToken (WriteInput.slotTag expected) label (some i)]) := by
  have hb := w.located hr
  have hnode := (holds_finalized hid).hasNode rfl
  obtain ⟨t, entry, survivor, hfound⟩ := hb.object hshape ((hasNode_object_iff hshape).mp hnode)
  obtain rfl := w.rank_inj (w.hasNode_finalized.mp hfound.hasNode) hfound.rank_eq
  simp only [position?, hshape, Option.bind_some, hfound.table, Option.map_some,
    Option.some.injEq] at hi
  rcases objectSlot_cases hshape hfound hexpected write site with
    ⟨hplace, -⟩ | ⟨hplace, -⟩ | ⟨-, index, hkey, heq⟩
  · simp [hinline] at hplace
  · simp [hinline] at hplace
  · obtain rfl : index = i :=
      (idxOf_eq_of_getElem? (hb.objects shape t hfound.table).keys_nodup hkey).symm.trans hi
    exact ⟨t.label, heq⟩

/-- What refers to a table is written as its position there. -/
theorem underTag_eq (hinline : input.config.inlineObjects = false) (hvalue : value ∈ w.log)
    (hstored : Tag.Stored input.tree input.registry tag nullable value)
    (hi : w.position? value = some i) (site : Site) :
    ∃ label, w.writer.underTag write tag nullable site value =
      (do .ok [← w.writer.referenceToken tag label (some i)]) := by
  cases hstored with
  | null | trueValue | falseValue | integer | double | absent => simp [position?] at hi
  | string _ s =>
      obtain rfl := Option.some.inj hi
      exact ⟨"strings", by
        simp only [WriteInput.underTag, indexOf_string hr hvalue, Except.mapError, ok_bind]⟩
  | array =>
      obtain rfl := Option.some.inj hi
      exact ⟨"arrays", by
        simp only [WriteInput.underTag, indexOf_array hr hvalue, Except.mapError, ok_bind]⟩
  | object _ hshape => exact objectSlot_eq hr hinline hvalue hshape rfl hi site
  | shape _ hshape => exact objectSlot_eq hr hinline hvalue hshape (by simp) hi site

end Trace

end Module

end SyntaxPack
