import NetworkExamples.Pre.Utils
import Mathlib.Data.List.Basic
import Mathlib.Tactic.NormNum

/-!
# Keys as hexadecimal texts

A producer encrypts the bits of a key that it reads from a file of hexadecimal digits
(`hexstr2intvec`), and a consumer writes the bits that it has decrypted to such a file
(`intvec2hexstr`). Both have the least significant byte first.

* `hex_round_trip_iff`: when the one is the inverse of the other. Of an odd number of digits the first
  one is lost.
-/

namespace Pre

namespace Hex

/-! ## The source -/

/-- The ends of the process. -/
inductive Fault where
  | exit
  /-- A read behind a vector. -/
  | outOfRange
  deriving DecidableEq

/-- What is left of `x` in an `int`. -/
def int (x : ℤ) : ℤ := x.bmod (2 ^ 32)

/-- `instr.substr(ix, 2)`. -/
def substr (instr : Text) (ix : ℕ) : Text := (instr.drop ix).take 2

def hexDigits : Text := "0123456789abcdefABCDEF".toList

def isxdigit (c : Char) : Bool := hexDigits.contains c

def digit (c : Char) : ℕ := if c.isDigit then c.toNat - 48 else c.toLower.toNat - 87

/-- `iss >> std::hex >> i`, for hexadecimal digits. -/
def readHex (s : Text) : ℕ := s.foldl (fun i c => 16 * i + digit c) 0

/-- `(unsigned char) i`, of the two digits from `ix` on. -/
def rawByte (instr : Text) (ix : ℕ) : BitVec 8 := BitVec.ofNat 8 (readHex (substr instr ix))

/-- The loop `ix -= 2` that ends below 0. -/
def rawBytes (instr : Text) : ℕ → List (BitVec 8)
  | 0 => [rawByte instr 0]
  | 1 => [rawByte instr 1]
  | ix + 2 => rawByte instr (ix + 2) :: rawBytes instr ix

/-- The bits of a byte, the least significant first. -/
def bits (byte : BitVec 8) : List (BitVec 64) :=
  (List.range 8).map fun j => BitVec.ofNat 64 (byte.toNat / 2 ^ j % 2)

/-- All bytes of the text: from `ix` on if that is not negative. -/
def readBytes (instr : Text) : List (BitVec 8) :=
  let len : ℕ := instr.length % 2 ^ 32
  let ix := int ((len : ℤ) - 2)
  if 0 ≤ ix then rawBytes instr ix.toNat else []

def hexstr2intvec (instr : Text) (p : ℕ) : Except Fault (List (BitVec 64)) :=
  if p ≠ 2 then .error .exit
  else .ok ((readBytes instr).flatMap bits)

/-- `tmp |= in_bits[ix + jx] << jx`. -/
def setBit (tmp : BitVec 8) (bit : BitVec 64) (jx : ℕ) : BitVec 8 :=
  (tmp.setWidth 64 ||| bit <<< jx).setWidth 8

/-- The eight bits of a byte. -/
def packByte (in_bits : List (BitVec 64)) : BitVec 8 :=
  in_bits.zipIdx.foldl (fun tmp bit => setBit tmp bit.1 bit.2) 0

/-- The bytes, eight bits at a time, from byte `kx` on, which is an `int`. -/
def packBytes : ℕ → List (BitVec 64) → Except Fault (List (BitVec 8))
  | _, [] => .ok []
  | kx, b₀ :: b₁ :: b₂ :: b₃ :: b₄ :: b₅ :: b₆ :: b₇ :: in_bits =>
    if int kx < 0 then .error .outOfRange
    else do
      let out_bytes ← packBytes (kx + 1) in_bits
      return packByte [b₀, b₁, b₂, b₃, b₄, b₅, b₆, b₇] :: out_bytes
  | _, _ => .error .outOfRange

/-- `std::setw(2) << std::hex << std::setfill('0')`. -/
def hexByte (byte : BitVec 8) : Text := (Nat.toDigits 16 byte.toNat).leftpad 2 '0'

/-- The loop `ix--`. -/
def writeBytes (out_bytes : List (BitVec 8)) : ℕ → Except Fault Text
  | 0 =>
    match out_bytes[0]? with
    | some byte => .ok (hexByte byte)
    | none => .error .outOfRange
  | ix + 1 =>
    match out_bytes[ix + 1]? with
    | some byte => do
      let s ← writeBytes out_bytes ix
      return hexByte byte ++ s
    | none => .error .outOfRange

def intvec2hexstr (in_bits : List (BitVec 64)) (p : ℕ) : Except Fault Text :=
  if p ≠ 2 then .error .exit
  else do
    let out_bytes ← packBytes 0 in_bits
    let len : ℕ := out_bytes.length % 2 ^ 32
    let ix := int ((len : ℤ) - 1)
    if 0 ≤ ix then writeBytes out_bytes ix.toNat else return []

/-! ## One byte -/

theorem hexByte_all : (hexDigits.all fun c => hexDigits.all fun d =>
    hexByte (BitVec.ofNat 8 (readHex [c, d])) == [c.toLower, d.toLower]) = true := by
  decide +kernel

theorem hexByte_rawByte {c d : Char} (hc : isxdigit c) (hd : isxdigit d) :
    hexByte (BitVec.ofNat 8 (readHex [c, d])) = [c.toLower, d.toLower] := by
  have h := List.all_eq_true.mp hexByte_all c (List.contains_iff_mem.mp hc)
  exact beq_iff_eq.mp (List.all_eq_true.mp h d (List.contains_iff_mem.mp hd))

theorem hexByte_spec : ∀ n < 256,
    hexByte (BitVec.ofNat 8 n) = [Nat.digitChar (n / 16), Nat.digitChar (n % 16)] ∧
      readHex [Nat.digitChar (n / 16), Nat.digitChar (n % 16)] = n := by
  decide +kernel

theorem packByte_bits : ∀ n < 256, packByte (bits (BitVec.ofNat 8 n)) = BitVec.ofNat 8 n := by
  decide +kernel

theorem packByte_self (byte : BitVec 8) : packByte (bits byte) = byte := by
  have h := packByte_bits byte.toNat byte.isLt
  rwa [BitVec.ofNat_toNat, BitVec.setWidth_eq] at h

/-- A bit of a vector. -/
def bit (b : Bool) : BitVec 64 := if b then 1 else 0

theorem bits_packByte : ∀ b₀ b₁ b₂ b₃ b₄ b₅ b₆ b₇ : Bool,
    bits (packByte [bit b₀, bit b₁, bit b₂, bit b₃, bit b₄, bit b₅, bit b₆, bit b₇]) =
      [bit b₀, bit b₁, bit b₂, bit b₃, bit b₄, bit b₅, bit b₆, bit b₇] := by
  decide +kernel

theorem length_bits (byte : BitVec 8) : (bits byte).length = 8 := rfl

theorem length_flatMap_bits (bytes : List (BitVec 8)) :
    (bytes.flatMap bits).length = 8 * bytes.length := by
  induction bytes with
  | nil => rfl
  | cons byte bytes ih =>
    rw [List.flatMap_cons, List.length_append, ih, length_bits, List.length_cons]
    omega

/-! ## From the text to the bytes -/

theorem int_of_lt {x : ℤ} (h : -2 ^ 31 ≤ x) (h' : x < 2 ^ 31) : int x = x :=
  Int.bmod_eq_of_le (by norm_num; omega) (by norm_num; omega)

theorem int_lt (x : ℤ) : int x < 2 ^ 31 := by
  have h := Int.bmod_lt (x := x) (m := 2 ^ 32) (by norm_num)
  norm_num at h
  exact h

/-- The bytes of a text, given from its last digit on. -/
def pairBytes : Text → List (BitVec 8)
  | d :: c :: digits => BitVec.ofNat 8 (readHex [c, d]) :: pairBytes digits
  | _ => []

theorem length_pairBytes (digits : Text) : (pairBytes digits).length = digits.length / 2 := by
  fun_induction pairBytes digits with
  | case1 d c digits ih =>
    simp only [List.length_cons, ih]
    omega
  | case2 digits h =>
    match digits with
    | [] | [_] => simp
    | d :: c :: digits => exact absurd rfl (h d c digits)

theorem rawByte_append {t u : Text} {ix : ℕ} (h : ix + 2 ≤ t.length) :
    rawByte (t ++ u) ix = rawByte t ix := by
  unfold rawByte substr
  rw [List.drop_append_of_le_length (by omega), List.take_append_of_le_length (by simp; omega)]

theorem rawByte_last (t : Text) (c d : Char) :
    rawByte (t ++ [c, d]) t.length = BitVec.ofNat 8 (readHex [c, d]) := by
  unfold rawByte substr
  rw [List.drop_left]
  rfl

theorem rawBytes_append {t u : Text} {ix : ℕ} (h : ix + 2 ≤ t.length) :
    rawBytes (t ++ u) ix = rawBytes t ix := by
  fun_induction rawBytes t ix with
  | case1 | case2 =>
    unfold rawBytes
    rw [rawByte_append h]
  | case3 ix ih =>
    rw [rawBytes, rawByte_append h, ih (by omega)]

theorem rawBytes_reverse (digits : Text) (h : 2 ≤ digits.length) :
    rawBytes digits.reverse (digits.length - 2) = pairBytes digits := by
  fun_induction pairBytes digits with
  | case1 d c digits ih =>
    have hlast := rawByte_last digits.reverse c d
    rw [List.length_reverse] at hlast
    rw [List.reverse_cons, List.reverse_cons, List.append_assoc, List.singleton_append,
      List.length_cons, List.length_cons, Nat.add_assoc, Nat.add_sub_cancel]
    rcases hlen : digits.length with _ | _ | n
    · obtain rfl := List.length_eq_zero_iff.mp hlen
      rfl
    · obtain ⟨b, rfl⟩ := List.length_eq_one_iff.mp hlen
      rfl
    · have hlt : n + 2 ≤ digits.reverse.length := by rw [List.length_reverse, hlen]
      rw [hlen] at hlast ih
      rw [rawBytes, hlast, rawBytes_append hlt, ← ih (by omega)]
      rfl
  | case2 digits h' =>
    match digits with
    | [] | [_] => simp at h
    | d :: c :: digits => exact absurd rfl (h' d c digits)

/-- A text that is not too long is read as a whole, up to the first digit of an odd number. -/
theorem readBytes_eq {s : Text} (h : s.length ≤ 2 ^ 31) : readBytes s = pairBytes s.reverse := by
  have hlen : s.length % 2 ^ 32 = s.length := Nat.mod_eq_of_lt (by omega)
  have hint : int ((s.length : ℤ) - 2) = s.length - 2 := int_of_lt (by omega) (by omega)
  unfold readBytes
  simp only [hlen, hint]
  split
  · next h0 =>
    have hraw := rawBytes_reverse s.reverse (by rw [List.length_reverse]; omega)
    rw [List.reverse_reverse, List.length_reverse] at hraw
    rw [← hraw]
    congr 1
    omega
  · next h0 =>
    have hnil : (pairBytes s.reverse).length = 0 := by
      rw [length_pairBytes, List.length_reverse]
      omega
    exact (List.length_eq_zero_iff.mp hnil).symm

theorem length_rawBytes (instr : Text) (ix : ℕ) : (rawBytes instr ix).length = ix / 2 + 1 := by
  fun_induction rawBytes instr ix with
  | case1 | case2 => rfl
  | case3 ix ih =>
    rw [List.length_cons, ih]
    omega

/-- The loop has an `int`. -/
theorem length_readBytes_le (s : Text) : (readBytes s).length ≤ 2 ^ 30 := by
  unfold readBytes
  simp only
  split
  · rw [length_rawBytes]
    have hlt := int_lt (((s.length % 2 ^ 32 : ℕ) : ℤ) - 2)
    omega
  · exact Nat.zero_le _

/-! ## From the bytes to the text -/

/-- The digits of the bytes, the most significant byte first. -/
def hexText (bytes : List (BitVec 8)) : Text := bytes.reverse.flatMap hexByte

theorem hexText_cons (byte : BitVec 8) (bytes : List (BitVec 8)) :
    hexText (byte :: bytes) = hexText bytes ++ hexByte byte := by
  unfold hexText
  simp

theorem packBytes_bits (bytes : List (BitVec 8)) (kx : ℕ) (h : kx + bytes.length ≤ 2 ^ 31) :
    packBytes kx (bytes.flatMap bits) = .ok bytes := by
  induction bytes generalizing kx with
  | nil => rfl
  | cons byte bytes ih =>
    rw [List.length_cons] at h
    have hint : int (kx : ℤ) = kx := int_of_lt (by omega) (by omega)
    have hpack := packByte_self byte
    rw [List.flatMap_cons]
    change packBytes kx ([_, _, _, _, _, _, _, _] ++ _) = _
    simp only [List.cons_append, List.nil_append, packBytes, hint]
    rw [if_neg (by omega), ih (kx + 1) (by omega)]
    exact congrArg (fun byte => Except.ok (byte :: bytes)) hpack

theorem writeBytes_eq {bytes : List (BitVec 8)} {ix : ℕ} (h : ix < bytes.length) :
    writeBytes bytes ix = .ok (hexText (bytes.take (ix + 1))) := by
  induction ix with
  | zero =>
    unfold writeBytes
    rw [List.getElem?_eq_getElem h, List.take_add_one, List.getElem?_eq_getElem h]
    simp [hexText]
  | succ ix ih =>
    unfold writeBytes
    rw [List.getElem?_eq_getElem h, ih (by omega), List.take_add_one (i := ix + 1),
      List.getElem?_eq_getElem h]
    unfold hexText
    simp only [Option.toList_some, List.reverse_append, List.reverse_singleton, List.flatMap_append,
      List.flatMap_singleton]
    rfl

theorem intvec2hexstr_bits {bytes : List (BitVec 8)} (h : bytes.length ≤ 2 ^ 31) :
    intvec2hexstr (bytes.flatMap bits) 2 = .ok (hexText bytes) := by
  have hlen : bytes.length % 2 ^ 32 = bytes.length := Nat.mod_eq_of_lt (by omega)
  have hint : int ((bytes.length : ℤ) - 1) = bytes.length - 1 := int_of_lt (by omega) (by omega)
  unfold intvec2hexstr
  rw [if_neg (by decide), packBytes_bits bytes 0 (by omega)]
  change (if 0 ≤ int _ then _ else _) = _
  rw [hlen, hint]
  split
  · next h0 =>
    have hix : ((bytes.length : ℤ) - 1).toNat + 1 = bytes.length := by omega
    rw [writeBytes_eq (by omega), hix, List.take_length]
  · next h0 =>
    obtain rfl : bytes = [] := List.length_eq_zero_iff.mp (by omega)
    rfl

theorem length_hexByte (byte : BitVec 8) : (hexByte byte).length = 2 := by
  obtain ⟨h, -⟩ := hexByte_spec byte.toNat byte.isLt
  rw [BitVec.ofNat_toNat, BitVec.setWidth_eq] at h
  rw [h]
  rfl

theorem length_hexText (bytes : List (BitVec 8)) : (hexText bytes).length = 2 * bytes.length := by
  induction bytes with
  | nil => rfl
  | cons byte bytes ih =>
    rw [hexText_cons, List.length_append, length_hexByte, ih, List.length_cons]
    omega

/-! ## The round trips -/

/-- The digits of the bytes of a text are its digits in lower case. -/
theorem hexText_pairBytes (digits : Text) (hhex : ∀ c ∈ digits, isxdigit c)
    (heven : digits.length % 2 = 0) :
    hexText (pairBytes digits) = digits.reverse.map Char.toLower := by
  fun_induction pairBytes digits with
  | case1 d c digits ih =>
    rw [List.length_cons, List.length_cons] at heven
    have hbyte := hexByte_rawByte (hhex c (by simp)) (hhex d (by simp))
    rw [hexText_cons, ih (fun x hx => hhex x (by simp [hx])) (by omega), hbyte]
    simp
  | case2 digits h =>
    match digits with
    | [] => rfl
    | [_] => simp at heven
    | d :: c :: digits => exact absurd rfl (h d c digits)

/-- The bytes of the digits of bytes are the bytes. -/
theorem pairBytes_hexText (bytes : List (BitVec 8)) : pairBytes (hexText bytes).reverse = bytes := by
  induction bytes with
  | nil => rfl
  | cons byte bytes ih =>
    obtain ⟨h, hread⟩ := hexByte_spec byte.toNat byte.isLt
    rw [BitVec.ofNat_toNat, BitVec.setWidth_eq] at h
    rw [hexText_cons, List.reverse_append, h]
    change BitVec.ofNat 8 (readHex [_, _]) :: pairBytes (hexText bytes).reverse = _
    rw [hread, ih, BitVec.ofNat_toNat, BitVec.setWidth_eq]

/-- A vector of bits, eight at a time. -/
theorem exists_bytes {l : List Bool} {n : ℕ} (hlen : l.length = 8 * n) :
    ∃ bytes : List (BitVec 8), l.map bit = bytes.flatMap bits ∧ bytes.length = n := by
  induction n generalizing l with
  | zero =>
    obtain rfl := List.length_eq_zero_iff.mp hlen
    exact ⟨[], rfl, rfl⟩
  | succ n ih =>
    match l, hlen with
    | b₀ :: b₁ :: b₂ :: b₃ :: b₄ :: b₅ :: b₆ :: b₇ :: l, hlen =>
      have hl : l.length = 8 * n := by
        simp only [List.length_cons] at hlen
        omega
      obtain ⟨bytes, hbytes, hn⟩ := ih hl
      refine ⟨packByte [bit b₀, bit b₁, bit b₂, bit b₃, bit b₄, bit b₅, bit b₆, bit b₇] :: bytes, ?_,
        by rw [List.length_cons, hn]⟩
      rw [List.flatMap_cons, bits_packByte, ← hbytes]
      rfl

theorem map_bit {in_bits : List (BitVec 64)} (h : ∀ b ∈ in_bits, b = 0 ∨ b = 1) :
    (in_bits.map fun b => decide (b = 1)).map bit = in_bits := by
  rw [List.map_map]
  refine (List.map_congr_left fun b hb => ?_).trans (List.map_id in_bits)
  rcases h b hb with rfl | rfl <;> rfl

/-- The digits of `s`, in lower case and with a leading `0` if their number is odd. -/
def lowerCase (s : Text) : Text :=
  if s.length % 2 = 1 then '0' :: s.map Char.toLower else s.map Char.toLower

/-- The text is the same after it has been converted to bits and back. -/
def TextKept (s : Text) : Prop :=
  ∃ v, hexstr2intvec s 2 = .ok v ∧ intvec2hexstr v 2 = .ok (lowerCase s)

/-- The bits are the same after they have been converted to a text and back. -/
def BitsKept (v : List (BitVec 64)) : Prop :=
  ∃ s, intvec2hexstr v 2 = .ok s ∧ hexstr2intvec s 2 = .ok v

theorem textKept_iff {s : Text} (hne : s ≠ []) (hhex : ∀ c ∈ s, isxdigit c) :
    TextKept s ↔ s.length % 2 = 0 ∧ s.length ≤ 2 ^ 31 := by
  have hbytes := length_readBytes_le s
  have hback : intvec2hexstr ((readBytes s).flatMap bits) 2 = .ok (hexText (readBytes s)) :=
    intvec2hexstr_bits (by omega)
  constructor
  · rintro ⟨v, hv, hs⟩
    obtain rfl : (readBytes s).flatMap bits = v := Except.ok.inj hv
    have hlen := congrArg List.length (Except.ok.inj (hback.symm.trans hs))
    have hpos : 0 < s.length := List.length_pos_of_ne_nil hne
    rw [length_hexText] at hlen
    unfold lowerCase at hlen
    split at hlen
    · next hodd =>
      -- The first digit is lost.
      rw [List.length_cons, List.length_map] at hlen
      rw [readBytes_eq (by omega), length_pairBytes, List.length_reverse] at hlen
      omega
    · next heven =>
      rw [List.length_map] at hlen
      omega
  · rintro ⟨heven, hlen⟩
    refine ⟨_, rfl, hback.trans ?_⟩
    have hdigits := hexText_pairBytes s.reverse (fun c hc => hhex c (List.mem_reverse.mp hc))
      (by rwa [List.length_reverse])
    rw [readBytes_eq hlen, hdigits, List.reverse_reverse]
    unfold lowerCase
    rw [if_neg (by omega)]

theorem bitsKept_iff {v : List (BitVec 64)} (hbits : ∀ b ∈ v, b = 0 ∨ b = 1)
    (hlen : v.length % 8 = 0) : BitsKept v ↔ v.length ≤ 2 ^ 33 := by
  constructor
  · rintro ⟨s, -, hv⟩
    have hlen := congrArg List.length (Except.ok.inj hv)
    have hbytes := length_readBytes_le s
    rw [length_flatMap_bits] at hlen
    omega
  · intro hle
    obtain ⟨bytes, hv, hn⟩ := exists_bytes (l := v.map fun b => decide (b = 1)) (n := v.length / 8)
      (by rw [List.length_map]; omega)
    rw [map_bit hbits] at hv
    have hback : readBytes (hexText bytes) = bytes := by
      rw [readBytes_eq (by rw [length_hexText]; omega), pairBytes_hexText]
    refine ⟨hexText bytes, ?_, ?_⟩
    · rw [hv]
      exact intvec2hexstr_bits (by omega)
    · unfold hexstr2intvec
      rw [if_neg (by decide), hback, hv]

/-- **When the conversions are inverse to each other**: for texts with an even number of digits, and
for bits, up to the lengths that the `int` of the loop allows. -/
theorem hex_round_trip_iff (s : Text) (hne : s ≠ []) (hhex : ∀ c ∈ s, isxdigit c)
    (v : List (BitVec 64)) (hbits : ∀ b ∈ v, b = 0 ∨ b = 1) (hlen : v.length % 8 = 0) :
    TextKept s ∧ BitsKept v ↔ (s.length % 2 = 0 ∧ s.length ≤ 2 ^ 31) ∧ v.length ≤ 2 ^ 33 :=
  and_congr (textKept_iff hne hhex) (bitsKept_iff hbits hlen)

/-- The text `0F`, and a byte. -/
theorem hex_round_trip_two : TextKept ['0', 'F'] ∧ BitsKept [1, 0, 1, 0, 0, 0, 0, 1] := by
  have hbits : ∀ b ∈ ([1, 0, 1, 0, 0, 0, 0, 1] : List (BitVec 64)), b = 0 ∨ b = 1 := by simp
  have hhex : ∀ c ∈ ['0', 'F'], isxdigit c := List.all_eq_true.mp rfl
  refine (hex_round_trip_iff ['0', 'F'] (by simp) hhex _ hbits rfl).mpr ⟨⟨rfl, ?_⟩, ?_⟩
  · norm_num
  · norm_num

/-- The text `1`: it is lost. -/
theorem not_hex_round_trip : ¬ ∀ s : Text, s ≠ [] → (∀ c ∈ s, isxdigit c) →
    ∀ v : List (BitVec 64), (∀ b ∈ v, b = 0 ∨ b = 1) → v.length % 8 = 0 →
      TextKept s ∧ BitsKept v := by
  intro h
  have hhex : ∀ c ∈ ['1'], isxdigit c := List.all_eq_true.mp rfl
  have hkept := (h ['1'] (by simp) hhex [] (fun b hb => by cases hb) rfl).1
  have heven := ((textKept_iff (by simp) hhex).mp hkept).1
  simp at heven

end Hex

end Pre
