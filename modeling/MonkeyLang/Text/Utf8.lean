/-! Decoding UTF-8, and where a sequence of bytes stops being UTF-8. -/

namespace MonkeyLang.Text

/-- Why some bytes are not UTF-8. `start` is the number of bytes that could be decoded. -/
inductive Utf8Error where
  /-- The `length` bytes from `start` on begin no character. -/
  | invalid (length start : Nat)
  /-- The bytes end within a character. -/
  | incomplete (start : Nat)
deriving DecidableEq, Repr, Inhabited

def Utf8Error.message : Utf8Error → String
  | invalid length start =>
    "invalid utf-8 sequence of " ++ toString length ++ " bytes from index " ++ toString start
  | incomplete start => "incomplete utf-8 byte sequence from index " ++ toString start

/-- The first and the last byte that may follow each leading byte, and the number of bytes of the
character. Surrogates, overlong forms and numbers beyond the last character have none. -/
def utf8Lead? (b : UInt8) : Option (UInt8 × UInt8 × Nat) :=
  if 0xC2 ≤ b && b ≤ 0xDF then some (0x80, 0xBF, 2)
  else if b == 0xE0 then some (0xA0, 0xBF, 3)
  else if b == 0xED then some (0x80, 0x9F, 3)
  else if 0xE1 ≤ b && b ≤ 0xEF then some (0x80, 0xBF, 3)
  else if b == 0xF0 then some (0x90, 0xBF, 4)
  else if 0xF1 ≤ b && b ≤ 0xF3 then some (0x80, 0xBF, 4)
  else if b == 0xF4 then some (0x80, 0x8F, 4)
  else none

def isContinuation (b : UInt8) : Bool := 0x80 ≤ b && b ≤ 0xBF

/-- What the bytes at the head of a text are. -/
inductive Utf8Head where
  | character (width : Nat)
  | invalid (length : Nat)
  | incomplete
deriving DecidableEq, Repr

/-- The character or the fault that `b` starts. -/
def utf8Head (b : UInt8) (rest : List UInt8) : Utf8Head :=
  if b < 0x80 then .character 1
  else
    match utf8Lead? b with
    | none => .invalid 1
    | some (low, high, width) =>
      match rest with
      | [] => .incomplete
      | b₂ :: rest =>
        if !(low ≤ b₂ && b₂ ≤ high) then .invalid 1
        else
          let more := (rest.take (width - 2)).takeWhile isContinuation
          if more.length == width - 2 then .character width
          else if rest.length == more.length then .incomplete
          else .invalid (2 + more.length)

/-- Looks for the first fault among bytes that start at `offset`; `n` bounds the characters. -/
def utf8FaultWithin : Nat → Nat → List UInt8 → Option Utf8Error
  | 0, _, _ => none
  | _, _, [] => none
  | n + 1, offset, b :: rest =>
    match utf8Head b rest with
    | .character width => utf8FaultWithin n (offset + width) ((b :: rest).drop width)
    | .invalid length => some (.invalid length offset)
    | .incomplete => some (.incomplete offset)

/-- The first fault of some bytes, if they are not UTF-8. -/
def utf8Fault? (bytes : List UInt8) : Option Utf8Error := utf8FaultWithin bytes.length 0 bytes

/-- The text that some bytes encode. -/
def decodeUtf8 (bytes : ByteArray) : Except Utf8Error String :=
  match String.fromUTF8? bytes with
  | some s => .ok s
  | none => .error ((utf8Fault? bytes.data.toList).getD (.incomplete bytes.size))

end MonkeyLang.Text
