/-
Reading bytes as text when they need not be well formed.

`decodeLossy` reads UTF-8 and puts U+FFFD for each maximal ill-formed part: a run of bytes that
begins a character but is not continued as it must be, or a single byte that begins none.
-/

namespace MutationAnalysis.Text

/-- The character that stands for bytes that spell none. -/
def replacement : Char := Char.ofNat 0xFFFD

/-- A character of which some bytes are read: the value so far, how many bytes are missing, and
the bounds of the next one. -/
structure Pending where
  value : Nat
  missing : Nat
  low : UInt8
  high : UInt8

/-- What a first byte begins: a whole character, a longer one, or nothing.  The bounds of the
second byte keep out overlong forms, surrogates and values past U+10FFFF. -/
inductive Lead where
  | whole (c : Char)
  | begins (p : Pending)
  | none

def Lead.of (b : UInt8) : Lead :=
  if b < 0x80 then .whole (Char.ofNat b.toNat)
  else if b < 0xC2 then .none
  else if b < 0xE0 then .begins ⟨b.toNat - 0xC0, 1, 0x80, 0xBF⟩
  else if b == 0xE0 then .begins ⟨0, 2, 0xA0, 0xBF⟩
  else if b == 0xED then .begins ⟨13, 2, 0x80, 0x9F⟩
  else if b < 0xF0 then .begins ⟨b.toNat - 0xE0, 2, 0x80, 0xBF⟩
  else if b == 0xF0 then .begins ⟨0, 3, 0x90, 0xBF⟩
  else if b < 0xF4 then .begins ⟨b.toNat - 0xF0, 3, 0x80, 0xBF⟩
  else if b == 0xF4 then .begins ⟨4, 3, 0x80, 0x8F⟩
  else .none

/-- Text read so far and the character begun, if any. -/
structure LossyState where
  text : String
  pending : Option Pending

/-- Takes a byte at which no character is open. -/
def LossyState.start (text : String) (b : UInt8) : LossyState :=
  match Lead.of b with
  | .whole c => ⟨text.push c, none⟩
  | .begins p => ⟨text, some p⟩
  | .none => ⟨text.push replacement, none⟩

/-- Takes the next byte: it continues the open character or cuts it off and starts anew. -/
def LossyState.push (s : LossyState) (b : UInt8) : LossyState :=
  match s.pending with
  | none => .start s.text b
  | some p =>
    if p.low ≤ b ∧ b ≤ p.high then
      let value := p.value * 64 + (b.toNat - 0x80)
      match p.missing with
      | 0 | 1 => ⟨s.text.push (Char.ofNat value), none⟩
      | n + 1 => ⟨s.text, some ⟨value, n, 0x80, 0xBF⟩⟩
    else .start (s.text.push replacement) b

/-- Text of bytes, with U+FFFD for each maximal ill-formed part. -/
def decodeLossy (bytes : List UInt8) : String :=
  let s := bytes.foldl LossyState.push ⟨"", none⟩
  match s.pending with
  | none => s.text
  | some _ => s.text.push replacement

end MutationAnalysis.Text
