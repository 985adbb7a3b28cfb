/-!
# SyntaxPack.Utf8

UTF-8 between characters and bytes, in plain arithmetic on code points.

`decode` accepts well-formed text only: no overlong form, no surrogate, nothing
above U+10FFFF. What it refuses it locates: a `Fault` carries the number of
bytes of the well-formed text before the bad sequence, and how many bytes of
that sequence could still have started a character.
-/

namespace SyntaxPack.Utf8

/-! ### Writing -/

/-- The one to four bytes of a character. -/
def encodeChar (c : Char) : List UInt8 :=
  let n := c.toNat
  if n < 0x80 then [n.toUInt8]
  else if n < 0x800 then [(0xC0 + n / 0x40).toUInt8, (0x80 + n % 0x40).toUInt8]
  else if n < 0x10000 then
    [(0xE0 + n / 0x1000).toUInt8, (0x80 + n / 0x40 % 0x40).toUInt8, (0x80 + n % 0x40).toUInt8]
  else
    [(0xF0 + n / 0x40000).toUInt8, (0x80 + n / 0x1000 % 0x40).toUInt8,
      (0x80 + n / 0x40 % 0x40).toUInt8, (0x80 + n % 0x40).toUInt8]

/-- The bytes of a list of characters. -/
def encodeChars (cs : List Char) : List UInt8 := cs.flatMap encodeChar

/-- The bytes of a text. -/
def encode (s : String) : List UInt8 := encodeChars s.toList

/-! ### Reading -/

/-- What is wrong with a sequence of bytes that should start a character. -/
inductive Defect where
  /-- The sequence is invalid after `length` bytes that could start a character
  (at least one byte counts as such). -/
  | invalid (length : Nat)
  /-- The input ends inside a sequence that is valid so far. -/
  | incomplete
  deriving DecidableEq, Repr, Inhabited

/-- Where and why a byte sequence is not well-formed text. -/
structure Fault where
  /-- The number of bytes of the well-formed text before the defect. -/
  validUpTo : Nat
  /-- What follows that text. -/
  defect : Defect
  deriving DecidableEq, Repr, Inhabited

/-- The wording of a fault. -/
def Fault.message (fault : Fault) : String :=
  match fault.defect with
  | .invalid length =>
    s!"invalid utf-8 sequence of {length} bytes from index {fault.validUpTo}"
  | .incomplete => s!"incomplete utf-8 byte sequence from index {fault.validUpTo}"

/-- Whether a byte continues a character: `80` to `BF`. -/
def isContinuation (b : UInt8) : Bool := 0x80 ≤ b.toNat && b.toNat < 0xC0

/-- The six payload bits of a continuation byte. -/
def payload (b : UInt8) : Nat := b.toNat - 0x80

/-- Whether `second` may follow the leading byte `first` of a longer sequence.
Four leading bytes restrict it further than to a continuation byte: `E0` and
`F0` against overlong forms, `ED` against surrogates and `F4` against code
points past U+10FFFF. -/
def admitsSecond (first second : UInt8) : Bool :=
  isContinuation second &&
    match first.toNat with
    | 0xE0 => 0xA0 ≤ second.toNat
    | 0xED => second.toNat < 0xA0
    | 0xF0 => 0x90 ≤ second.toNat
    | 0xF4 => second.toNat < 0x90
    | _ => true

/-- Reads all characters of bytes that start `index` bytes into a text. -/
def decodeFrom (index : Nat) : List UInt8 → Except Fault (List Char)
  | [] => .ok []
  | a :: tail =>
    let n := a.toNat
    if n < 0x80 then
      (decodeFrom (index + 1) tail).map (Char.ofNat n :: ·)
    else if n < 0xC2 || 0xF5 ≤ n then .error ⟨index, .invalid 1⟩
    else
      match tail with
      | [] => .error ⟨index, .incomplete⟩
      | b :: tail =>
        if !admitsSecond a b then .error ⟨index, .invalid 1⟩
        else if n < 0xE0 then
          (decodeFrom (index + 2) tail).map (Char.ofNat ((n - 0xC0) * 0x40 + payload b) :: ·)
        else
          match tail with
          | [] => .error ⟨index, .incomplete⟩
          | c :: tail =>
            if !isContinuation c then .error ⟨index, .invalid 2⟩
            else if n < 0xF0 then
              (decodeFrom (index + 3) tail).map
                (Char.ofNat ((n - 0xE0) * 0x1000 + payload b * 0x40 + payload c) :: ·)
            else
              match tail with
              | [] => .error ⟨index, .incomplete⟩
              | d :: tail =>
                if !isContinuation d then .error ⟨index, .invalid 3⟩
                else
                  (decodeFrom (index + 4) tail).map
                    (Char.ofNat ((n - 0xF0) * 0x40000 + payload b * 0x1000 + payload c * 0x40 +
                      payload d) :: ·)

/-- The text that `bytes` are the UTF-8 form of. -/
def decode (bytes : List UInt8) : Except Fault String :=
  (decodeFrom 0 bytes).map String.ofList

/-! ### Small equations -/

@[simp] theorem encodeChars_nil : encodeChars [] = [] := rfl

@[simp] theorem encodeChars_cons (c : Char) (cs : List Char) :
    encodeChars (c :: cs) = encodeChar c ++ encodeChars cs := rfl

@[simp] theorem decodeFrom_nil (index : Nat) : decodeFrom index [] = .ok [] := by
  simp [decodeFrom]

end SyntaxPack.Utf8
