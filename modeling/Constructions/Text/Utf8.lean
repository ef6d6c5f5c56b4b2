import Constructions.Text.Quoted

/-!
# Reading UTF-8

Bytes are read strictly: a byte sequence that is no character is a fault, and the fault covers the
longest part of it that could still have begun one.

* `Text.Utf8Fault` -- where reading stopped and why, with its text `Utf8Fault.message`.
* `Text.secondByte` -- which second bytes a first byte admits; this rules out overlong forms,
  surrogates and code points above U+10FFFF.
* `Text.decodeUtf8` -- the characters of a byte sequence.
-/

namespace Constructions.Text

/-! ## 1. Faults -/

/-- Why a byte sequence is no character. -/
inductive Utf8Cause
  /-- No character begins with this byte. -/
  | start
  /-- The byte that follows cannot follow. -/
  | continuation
  /-- The bytes end within a character. -/
  | cut
deriving DecidableEq, Repr

/-- The words for a cause. -/
def Utf8Cause.text : Utf8Cause → String
  | start => "invalid start byte"
  | continuation => "invalid continuation byte"
  | cut => "unexpected end of data"

/-- The bytes `first` and `others` at `position` are no character and begin none. -/
structure Utf8Fault where
  position : Nat
  first : UInt8
  others : Nat
  cause : Utf8Cause
deriving DecidableEq, Repr

/-- The text of a fault: one byte is shown, a longer sequence is given by its positions. -/
def Utf8Fault.message (f : Utf8Fault) : String :=
  let place :=
    if f.others = 0 then
      "byte 0x" ++ hexText 2 f.first.toNat ++ " in position " ++ toString f.position
    else "bytes in position " ++ toString f.position ++ "-" ++ toString (f.position + f.others)
  "'utf-8' codec can't decode " ++ place ++ ": " ++ f.cause.text

/-! ## 2. Bytes -/

/-- A byte that continues a character. -/
def isTail (b : UInt8) : Bool := 0x80 ≤ b && b ≤ 0xBF

/-- The second bytes that may follow the first byte `a` of a character of three or four bytes. -/
def secondByte (a b : UInt8) : Bool :=
  isTail b
    && !(a == 0xE0 && b < 0xA0) && !(a == 0xED && 0xA0 ≤ b)
    && !(a == 0xF0 && b < 0x90) && !(a == 0xF4 && 0x90 ≤ b)

/-- The six bits that a continuing byte holds. -/
def tailBits (b : UInt8) : Nat := b.toNat % 64

/-! ## 3. Reading -/

/-- The characters of `bytes`, which begin at position `pos`, after those in `done`, the last one
    first. -/
def decodeFrom (pos : Nat) (done : List Char) (bytes : List UInt8) : Except Utf8Fault (List Char) :=
  match bytes with
  | [] => .ok done.reverse
  | a :: rest =>
    if a < 0x80 then decodeFrom (pos + 1) (Char.ofNat a.toNat :: done) rest
    else if a < 0xC2 then .error ⟨pos, a, 0, .start⟩
    else if a < 0xE0 then
      match rest with
      | [] => .error ⟨pos, a, 0, .cut⟩
      | b :: rest =>
        if isTail b then
          decodeFrom (pos + 2) (Char.ofNat (a.toNat % 32 * 64 + tailBits b) :: done) rest
        else .error ⟨pos, a, 0, .continuation⟩
    else if a < 0xF0 then
      match rest with
      | [] => .error ⟨pos, a, 0, .cut⟩
      | b :: rest =>
        if secondByte a b then
          match rest with
          | [] => .error ⟨pos, a, 1, .cut⟩
          | c :: rest =>
            if isTail c then
              decodeFrom (pos + 3)
                (Char.ofNat ((a.toNat % 16 * 64 + tailBits b) * 64 + tailBits c) :: done) rest
            else .error ⟨pos, a, 1, .continuation⟩
        else .error ⟨pos, a, 0, .continuation⟩
    else if a < 0xF5 then
      match rest with
      | [] => .error ⟨pos, a, 0, .cut⟩
      | b :: rest =>
        if secondByte a b then
          match rest with
          | [] => .error ⟨pos, a, 1, .cut⟩
          | c :: rest =>
            if isTail c then
              match rest with
              | [] => .error ⟨pos, a, 2, .cut⟩
              | d :: rest =>
                if isTail d then
                  decodeFrom (pos + 4)
                    (Char.ofNat (((a.toNat % 8 * 64 + tailBits b) * 64 + tailBits c) * 64
                      + tailBits d) :: done) rest
                else .error ⟨pos, a, 2, .continuation⟩
            else .error ⟨pos, a, 1, .continuation⟩
        else .error ⟨pos, a, 0, .continuation⟩
    else .error ⟨pos, a, 0, .start⟩

/-- The characters that the bytes spell. -/
def decodeUtf8 (bytes : List UInt8) : Except Utf8Fault (List Char) := decodeFrom 0 [] bytes

end Constructions.Text
