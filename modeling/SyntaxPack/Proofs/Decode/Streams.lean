import SyntaxPack.Proofs.Decode.Steps
import SyntaxPack.Proofs.Written
/-!
# SyntaxPack.Proofs.Decode.Streams

Storing a value stream: what a successful step has done, and when it succeeds.
-/

namespace SyntaxPack

namespace Module

namespace DecodeInput

variable {input : DecodeInput} {s t : DecodeState} {map : TagMap Reader} {key index : Nat}

theorem located_eq_ok {α : Type} {read : Read α} {r r' : Reader} {x : Nat × α} :
    located read r = .ok x r' ↔ x.1 = r.offset ∧ read r = .ok x.2 r' := by
  obtain ⟨offset, item⟩ := x
  rw [located, run_bind_of_ok Read.run_offset, run_bind_eq_ok]
  simp only [run_pure_eq_ok, Prod.mk.injEq]
  constructor
  · rintro ⟨a, t, hread, ⟨rfl, rfl⟩, rfl⟩
    exact ⟨rfl, hread⟩
  · rintro ⟨rfl, hread⟩
    exact ⟨item, r', hread, ⟨rfl, rfl⟩, rfl⟩

/-- A stream that has been stored follows the index of a tag that had none. -/
theorem readStream_cases (hmap : s.source.streams = some map)
    (h : input.readStream index s = .ok () t) :
    ∃ key r stream, key < input.tags.size ∧ map.find? key = none ∧
      Read.nat32 s.input = .ok key r ∧ Read.substream r = .ok stream t.input ∧
      t = { s with input := t.input, source := ⟨s.source.body, some (map.insert key stream)⟩ } := by
  obtain ⟨⟨offset, key⟩, u, hread, h₁⟩ := run_bind_eq_ok.mp h
  obtain ⟨r, hlocated, rfl⟩ := Decode.fromInput_eq_ok.mp hread
  obtain ⟨-, hkey⟩ := located_eq_ok.mp hlocated
  obtain ⟨_, _, hensure, h₂⟩ := run_bind_eq_ok.mp h₁
  obtain ⟨hlt, rfl⟩ := Decode.ensure_eq_ok.mp hensure
  obtain ⟨stream, v, hstream, h₃⟩ := run_bind_eq_ok.mp h₂
  obtain ⟨rest, hsubstream, rfl⟩ := Decode.fromInput_eq_ok.mp hstream
  rw [run_bind_of_ok run_get] at h₃
  simp only [StreamReader.insert, hmap, Option.getD_some] at h₃
  rw [run_bind_of_ok run_modify, Decode.check_eq_ok] at h₃
  obtain ⟨hinsert, rfl⟩ := h₃
  refine ⟨key, r, stream, hlt, ?_, hkey, hsubstream, rfl⟩
  split at hinsert
  · simp at hinsert
  · rename_i hnone
    simpa using hnone

/-- A stream is stored under its tag. -/
theorem run_readStream {offset : Nat} {stream framed rest : List UInt8} {label : String}
    (hkey : key < input.tags.size) (hlt : key < UInt32.size)
    (hframed : Bytes.framed label stream = .ok framed)
    (hs : s.input = ⟨Bytes.fixed 4 key ++ (framed ++ rest), offset⟩)
    (hmap : s.source.streams = some map) (hnew : map.find? key = none) :
    input.readStream index s = .ok () { s with
      input := ⟨rest, offset + (Bytes.fixed 4 key).length + framed.length⟩
      source := ⟨s.source.body,
        some (map.insert key ⟨stream, offset + (Bytes.fixed 4 key).length + 4⟩)⟩ } := by
  have hread := Read.takes_nat32 hlt (framed ++ rest) offset
  rw [← hs] at hread
  have hlocated : located Read.nat32 s.input = .ok (s.input.offset, key) _ :=
    located_eq_ok.mpr ⟨rfl, hread⟩
  have hstream := Read.run_substream hframed rest (offset + (Bytes.fixed 4 key).length)
  have hensure : ∀ u error, Decode.ensure (key < input.tags.size) error u = .ok () u :=
    fun u error => Decode.ensure_eq_ok.mpr ⟨hkey, rfl⟩
  have hinsert : ∀ reader, s.source.insert key reader =
      (.ok (), ⟨s.source.body, some (map.insert key reader)⟩) := fun reader => by
    simp [StreamReader.insert, hmap, hnew]
  rw [readStream, run_bind_of_ok (Decode.fromInput_eq_ok.mpr ⟨_, hlocated, rfl⟩)]
  simp only
  rw [run_bind_of_ok (hensure _ _), run_bind_of_ok (Decode.fromInput_eq_ok.mpr ⟨_, hstream, rfl⟩)]
  rw [run_bind_of_ok run_get]
  simp only [hinsert]
  rfl

end DecodeInput

end Module

end SyntaxPack
