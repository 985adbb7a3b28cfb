import SyntaxPack.Module.Write
import SyntaxPack.Proofs.Policy.Unchecked
/-!
# SyntaxPack.Proofs.Policy.Output

What is written of a module whose tables do not check for divergence.

A writer reads the entries of the tables, their order and their labels. It is the same writer
for a module with and without checks, slot by slot and section by section.
-/

namespace SyntaxPack

namespace Module

namespace WriteInput

/-- The same writer of a module without checks for divergence. -/
def unchecked (input : WriteInput) : WriteInput := { input with module := input.module.unchecked }

@[simp] theorem module_unchecked (input : WriteInput) :
    input.unchecked.module = input.module.unchecked := rfl

variable (input : WriteInput) (write : ShapeId → NodeId → Except Error (List Token))

/-! ### Slots -/

theorem token_unchecked : input.unchecked.token = input.token := rfl

theorem tagToken_unchecked : input.unchecked.tagToken = input.tagToken := by
  unfold tagToken
  rw [module_unchecked, tagIndex_unchecked, token_unchecked]
  rfl

theorem tableLabel_unchecked : input.unchecked.tableLabel = input.tableLabel := by
  funext shape
  cases shape with
  | none => rfl
  | some shape =>
      unfold tableLabel
      rw [Option.bind_some, Option.bind_some, module_unchecked, objects_unchecked,
        ObjectTables.table?_unchecked]
      cases input.module.objects.table? shape <;> rfl

theorem nullObjectSlot_unchecked : input.unchecked.nullObjectSlot = input.nullObjectSlot := by
  unfold nullObjectSlot
  rw [tagToken_unchecked, tableLabel_unchecked]
  rfl

theorem objectSlot_unchecked : input.unchecked.objectSlot write = input.objectSlot write := by
  funext expected site id
  unfold objectSlot
  rw [tagToken_unchecked, token_unchecked]
  simp only [module_unchecked, objects_unchecked, ObjectTables.table?_unchecked]
  refine bind_congr fun shape => ?_
  cases input.module.objects.table? shape <;> rfl

theorem underTag_unchecked : input.unchecked.underTag write = input.underTag write := by
  funext tag nullable site value
  unfold underTag
  rw [objectSlot_unchecked, nullObjectSlot_unchecked]
  rfl

theorem slot_unchecked : input.unchecked.slot write = input.slot write := by
  unfold slot
  rw [tagToken_unchecked, underTag_unchecked]
  rfl

theorem fieldSlots_unchecked : input.unchecked.fieldSlots write = input.fieldSlots write := by
  unfold fieldSlots
  rw [slot_unchecked]
  rfl

theorem fieldsWithin_unchecked (depth : Nat) :
    input.unchecked.fieldsWithin depth = input.fieldsWithin depth := by
  induction depth with
  | zero => rfl
  | succ depth ih =>
      show input.unchecked.fieldSlots (input.unchecked.fieldsWithin depth) =
        input.fieldSlots (input.fieldsWithin depth)
      rw [ih, fieldSlots_unchecked]

theorem objectFields_unchecked : input.unchecked.objectFields = input.objectFields :=
  input.fieldsWithin_unchecked _

/-! ### Sections -/

theorem objectSection_unchecked (t : UniqueTable NodeId) :
    input.unchecked.objectSection t.unchecked = input.objectSection t := by
  unfold objectSection
  rw [tagToken_unchecked, objectFields_unchecked]
  rfl

theorem arrayEntry_unchecked : input.unchecked.arrayEntry = input.arrayEntry := by
  unfold arrayEntry
  rw [tagToken_unchecked, slot_unchecked, objectFields_unchecked]
  rfl

theorem arraySection_unchecked : input.unchecked.arraySection = input.arraySection := by
  unfold arraySection
  rw [arrayEntry_unchecked]
  rfl

theorem rootSection_unchecked : input.unchecked.rootSection = input.rootSection := by
  unfold rootSection
  rw [slot_unchecked, objectFields_unchecked]
  rfl

theorem directoryTable_unchecked (t : ObjectTable) :
    input.unchecked.directoryTable t.unchecked = input.directoryTable t := by
  unfold directoryTable
  rw [module_unchecked, tagIndex_unchecked]
  rfl

theorem directoryObjects_unchecked : input.unchecked.directoryObjects = input.directoryObjects := by
  have htables : input.unchecked.module.objects.tables =
      input.module.objects.tables.map ObjectTable.unchecked := rfl
  unfold directoryObjects
  simp only [htables, List.length_map, List.mapM_map, Function.comp_def, directoryTable_unchecked]
  cases input.module.objects.tables <;> rfl

theorem directory_unchecked : input.unchecked.directory = input.directory := by
  unfold directory
  rw [directoryObjects_unchecked]
  rfl

/-- The bytes of a module do not tell whether its tables check for divergence. -/
theorem bytes_unchecked : input.unchecked.bytes = input.bytes := by
  have htables : input.unchecked.module.objects.tables.map (·.table) =
      (input.module.objects.tables.map (·.table)).map Table.unchecked := by
    show (input.module.objects.tables.map _).map _ = _
    rw [List.map_map, List.map_map]
    rfl
  unfold bytes
  simp only [htables, directory_unchecked, arraySection_unchecked, rootSection_unchecked, List.mapM_map,
    List.zip_map_left, Function.comp_def, objectSection_unchecked]
  rfl

end WriteInput

end Module

end SyntaxPack
