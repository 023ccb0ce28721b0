/-!
UTF-8 as bytes. A byte sequence falls into characters and ill-formed pieces; an ill-formed piece
goes as far as its bytes could still start a character. Strict decoding refuses such pieces, and
lenient decoding puts the replacement character in their place.
-/
namespace DirectiveTemplates.Text

def encodeUtf8 (s : String) : List UInt8 := s.toList.flatMap String.utf8EncodeChar

/-- What a first byte announces: how many bytes follow it, the range of the byte behind it, and
the bits it gives to the character. -/
structure Lead where
  following : Nat
  low : Nat
  high : Nat
  bits : Nat
  deriving DecidableEq, Repr

def lead? (b : Nat) : Option Lead :=
  if b ≤ 0x7F then some ⟨0, 0x80, 0xBF, b⟩
  else if 0xC2 ≤ b ∧ b ≤ 0xDF then some ⟨1, 0x80, 0xBF, b - 0xC0⟩
  else if b = 0xE0 then some ⟨2, 0xA0, 0xBF, 0⟩
  else if b = 0xED then some ⟨2, 0x80, 0x9F, 0xD⟩
  else if 0xE1 ≤ b ∧ b ≤ 0xEF then some ⟨2, 0x80, 0xBF, b - 0xE0⟩
  else if b = 0xF0 then some ⟨3, 0x90, 0xBF, 0⟩
  else if 0xF1 ≤ b ∧ b ≤ 0xF3 then some ⟨3, 0x80, 0xBF, b - 0xF0⟩
  else if b = 0xF4 then some ⟨3, 0x80, 0x8F, 4⟩
  else none

/-- Reads the bytes that follow a first byte; none when one of them is missing. -/
def readFollowing : Nat → Nat → Nat → Nat → List UInt8 → Option Char × List UInt8
  | 0, _, _, bits, bs => (some (Char.ofNat bits), bs)
  | _ + 1, _, _, _, [] => (none, [])
  | n + 1, low, high, bits, b :: bs =>
    if low ≤ b.toNat ∧ b.toNat ≤ high then
      readFollowing n 0x80 0xBF (bits * 64 + (b.toNat - 0x80)) bs
    else (none, b :: bs)

/-- The characters of a byte sequence, none for each ill-formed piece, at most `count` of them. -/
def piecesWithin : Nat → List UInt8 → List (Option Char)
  | 0, _ => []
  | _ + 1, [] => []
  | count + 1, b :: bs =>
    match lead? b.toNat with
    | none => none :: piecesWithin count bs
    | some l =>
      let (c, rest) := readFollowing l.following l.low l.high l.bits bs
      c :: piecesWithin count rest

def pieces (bs : List UInt8) : List (Option Char) := piecesWithin bs.length bs

def decodeUtf8? (bs : List UInt8) : Option String :=
  ((pieces bs).mapM id).map String.ofList

def decodeUtf8 (bs : List UInt8) : String :=
  String.ofList ((pieces bs).map (·.getD '\uFFFD'))

end DirectiveTemplates.Text
