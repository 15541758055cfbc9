/-!
# Reading UTF-8

Bytes are read as characters one at a time. Where that fails, the fault says which bytes are to
blame: a byte that begins no character; the bytes of a character up to a byte that cannot go on
with it; or all that is left, if the bytes end within a character.

## Main definitions

* `Utf8.Fault` — why and where bytes are no text.
* `Utf8.decode` — the text that bytes stand for.
* `Text.unifyLineEnds` — a text in which every line ends alike.
-/

namespace LoxLang

namespace Utf8

/-- Why bytes are no text. -/
inductive Reason
  | invalidStart
  | invalidContinuation
  | unexpectedEnd
deriving DecidableEq, Repr

/-- Bytes that are no text: where they begin, and the bytes themselves. -/
structure Fault where
  reason : Reason
  position : Nat
  bytes : List UInt8
deriving DecidableEq, Repr

/-- How many bytes follow a first byte, and between which bounds the next one has to lie. -/
def shape? (lead : UInt8) : Option (Nat × UInt8 × UInt8) :=
  if lead < 0x80 then some (0, 0x80, 0xBF)
  else if lead < 0xC2 then none
  else if lead < 0xE0 then some (1, 0x80, 0xBF)
  else if lead == 0xE0 then some (2, 0xA0, 0xBF)
  else if lead == 0xED then some (2, 0x80, 0x9F)
  else if lead < 0xF0 then some (2, 0x80, 0xBF)
  else if lead == 0xF0 then some (3, 0x90, 0xBF)
  else if lead < 0xF4 then some (3, 0x80, 0xBF)
  else if lead == 0xF4 then some (3, 0x80, 0x8F)
  else none

/-- The bits of a first byte that belong to the code point, by the number of bytes that follow. -/
def leadBits (following : Nat) (lead : UInt8) : Nat :=
  match following with
  | 0 => lead.toNat
  | 1 => lead.toNat % 0x20
  | 2 => lead.toNat % 0x10
  | _ => lead.toNat % 0x08

/-- What becomes of the bytes that should go on with a character. -/
inductive Tail
  /-- The code point, and the bytes after it. -/
  | whole (code : Nat) (rest : List UInt8)
  /-- So many bytes fit, the next one does not. -/
  | broken (fitting : Nat)
  /-- The bytes end too early. -/
  | short

/-- Reads the bytes that go on with a character, the first of them between two bounds. -/
def readTail (code fitting : Nat) : (missing : Nat) → UInt8 → UInt8 → List UInt8 → Tail
  | 0, _, _, rest => .whole code rest
  | _ + 1, _, _, [] => .short
  | missing + 1, low, high, b :: rest =>
    if low ≤ b && b ≤ high then
      readTail (code * 0x40 + b.toNat % 0x40) (fitting + 1) missing 0x80 0xBF rest
    else .broken fitting

theorem length_of_readTail {code fitting missing : Nat} {low high : UInt8}
    {bytes rest : List UInt8} {result : Nat}
    (h : readTail code fitting missing low high bytes = .whole result rest) :
    rest.length ≤ bytes.length := by
  fun_induction readTail with
  | case1 => simp_all
  | case2 => simp at h
  | case3 code fitting missing low high b bytes _ ih =>
    have := ih h
    simp
    omega
  | case4 => simp at h

/-- Reads bytes from a position on, with the characters before it in reverse. -/
def decodeOnto (found : List Char) (position : Nat) (bytes : List UInt8) :
    Except Fault (List Char) :=
  match bytes with
  | [] => .ok found.reverse
  | lead :: rest =>
    match shape? lead with
    | none => .error ⟨.invalidStart, position, [lead]⟩
    | some (following, low, high) =>
      match _h : readTail (leadBits following lead) 0 following low high rest with
      | .whole code left =>
        decodeOnto (Char.ofNat code :: found) (position + 1 + following) left
      | .broken fitting =>
        .error ⟨.invalidContinuation, position, lead :: rest.take fitting⟩
      | .short => .error ⟨.unexpectedEnd, position, lead :: rest⟩
termination_by bytes.length
decreasing_by
  have := length_of_readTail _h
  simp
  omega

/-- The text that bytes stand for. -/
def decode (bytes : List UInt8) : Except Fault (List Char) := decodeOnto [] 0 bytes

/-- A byte for each character of a text. -/
def bytesOf (text : List Char) : List UInt8 := text.map fun c => UInt8.ofNat c.toNat

theorem decodeOnto_bytesOf {text : List Char} (h : ∀ c ∈ text, c.toNat < 0x80) (found : List Char)
    (position : Nat) : decodeOnto found position (bytesOf text) = .ok (found.reverse ++ text) := by
  induction text generalizing found position with
  | nil => simp [bytesOf, decodeOnto]
  | cons c text ih =>
    have hc : c.toNat < 0x80 := h c (by simp)
    have hbyte : (UInt8.ofNat c.toNat).toNat = c.toNat :=
      UInt8.toNat_ofNat_of_lt (Nat.lt_trans hc (by decide))
    have hlt : UInt8.ofNat c.toNat < 0x80 := by
      rw [UInt8.lt_iff_toNat_lt, hbyte]
      exact hc
    have hshape : shape? (UInt8.ofNat c.toNat) = some (0, 0x80, 0xBF) := by
      rw [shape?, if_pos hlt]
    have hbits : leadBits 0 (UInt8.ofNat c.toNat) = c.toNat := hbyte
    have hrest := ih (fun d hd => h d (List.mem_cons_of_mem c hd)) (c :: found) (position + 1)
    rw [bytesOf, List.map_cons, decodeOnto, hshape]
    dsimp only [readTail]
    rw [hbits, Char.ofNat_toNat]
    exact hrest.trans (by simp)

/-- Characters of one byte each are read as they are. -/
theorem decode_bytesOf {text : List Char} (h : ∀ c ∈ text, c.toNat < 0x80) :
    decode (bytesOf text) = .ok text := decodeOnto_bytesOf h [] 0

end Utf8

namespace Text

/-- A text in which every line ends with a line feed: a carriage return is one, and takes a line
feed after it along. -/
def unifyLineEnds (text : List Char) : List Char :=
  let step : List Char × Bool → Char → List Char × Bool := fun (found, afterReturn) c =>
    if c == '\r' then ('\n' :: found, true)
    else if c == '\n' && afterReturn then (found, false)
    else (c :: found, false)
  (text.foldl step ([], false)).1.reverse

/-- A text without carriage returns stays as it is. -/
theorem unifyLineEnds_of_notMem {text : List Char} (h : '\r' ∉ text) :
    unifyLineEnds text = text := by
  have hfold : ∀ found : List Char, text.foldl (fun (found, afterReturn) c =>
      if c == '\r' then ('\n' :: found, true)
      else if c == '\n' && afterReturn then (found, false)
      else (c :: found, false)) (found, false) = (text.reverse ++ found, false) := by
    induction text with
    | nil => simp
    | cons c text ih =>
      have hc : (c == '\r') = false := by
        rw [beq_eq_false_iff_ne]
        rintro rfl
        simp at h
      intro found
      simp only [List.foldl_cons, hc, Bool.false_eq_true, if_false, Bool.and_false]
      rw [ih fun hmem => h (List.mem_cons_of_mem c hmem)]
      simp
  rw [unifyLineEnds]
  simp only [hfold]
  simp

end Text

end LoxLang
