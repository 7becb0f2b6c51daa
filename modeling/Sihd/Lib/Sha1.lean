import Sihd.Lib.Bytes
import Sihd.Lib.Rows
import Mathlib.Data.List.Basic
import Mathlib.Tactic.Common

/-!
# SHA-1

A message is padded to whole blocks of 64 bytes by a one bit, zeros and its length in bits.
The blocks are compressed one after the other into five words, whose bytes are the digest.
-/

namespace Sha1

/-! ### Words -/

/-- A word turned to the left. -/
def rotl (n x : UInt32) : UInt32 := (x <<< n) ||| (x >>> (32 - n))

def ch (x y z : UInt32) : UInt32 := (x &&& y) ^^^ (~~~x &&& z)

def parity (x y z : UInt32) : UInt32 := x ^^^ y ^^^ z

def maj (x y z : UInt32) : UInt32 := (x &&& y) ^^^ (x &&& z) ^^^ (y &&& z)

/-- The function of a round. -/
def f (t : Nat) : UInt32 → UInt32 → UInt32 → UInt32 :=
  if t < 20 then ch else if t < 40 then parity else if t < 60 then maj else parity

/-- The constant of a round. -/
def k (t : Nat) : UInt32 :=
  if t < 20 then 0x5a827999 else if t < 40 then 0x6ed9eba1
  else if t < 60 then 0x8f1bbcdc else 0xca62c1d6

/-- A word of a block, the highest byte first. -/
def word (block : List UInt8) (t : Nat) : UInt32 :=
  UInt32.ofNat (wordOf [block.getD (4 * t + 3) 0, block.getD (4 * t + 2) 0,
    block.getD (4 * t + 1) 0, block.getD (4 * t) 0])

/-- The message schedule. -/
def schedule (block : List UInt8) (t : Nat) : UInt32 :=
  if t < 16 then word block t
  else rotl 1 (schedule block (t - 3) ^^^ schedule block (t - 8) ^^^ schedule block (t - 14) ^^^
    schedule block (t - 16))
termination_by t

theorem schedule_of_lt {t : Nat} (h : t < 16) (block : List UInt8) :
    schedule block t = word block t := by
  rw [schedule, if_pos h]

theorem schedule_of_le {t : Nat} (h : 16 ≤ t) (block : List UInt8) :
    schedule block t = rotl 1 (schedule block (t - 3) ^^^ schedule block (t - 8) ^^^
      schedule block (t - 14) ^^^ schedule block (t - 16)) := by
  rw [schedule, if_neg (Nat.not_lt.mpr h)]

/-! ### Words as they are computed -/

theorem ch_eq_or (x y z : UInt32) : (x &&& y) ||| (~~~x &&& z) = ch x y z := by
  refine UInt32.toBitVec_inj.mp (BitVec.eq_of_getElem_eq fun i hi => ?_)
  simp only [ch, UInt32.toBitVec_or, UInt32.toBitVec_and, UInt32.toBitVec_not, UInt32.toBitVec_xor,
    BitVec.getElem_or, BitVec.getElem_and, BitVec.getElem_not, BitVec.getElem_xor]
  cases x.toBitVec[i] <;> simp

theorem maj_eq_or (x y z : UInt32) : (x &&& y) ||| (x &&& z) ||| (y &&& z) = maj x y z := by
  refine UInt32.toBitVec_inj.mp (BitVec.eq_of_getElem_eq fun i hi => ?_)
  simp only [maj, UInt32.toBitVec_or, UInt32.toBitVec_and, UInt32.toBitVec_xor,
    BitVec.getElem_or, BitVec.getElem_and, BitVec.getElem_xor]
  cases x.toBitVec[i] <;> cases y.toBitVec[i] <;> cases z.toBitVec[i] <;> rfl

/-- A shifted word and bits below it. -/
theorem toNat_shiftLeft_or {x y n : UInt32} (hn : n < 32) (hx : x.toNat * 2 ^ n.toNat < 2 ^ 32)
    (hy : y.toNat < 2 ^ n.toNat) :
    ((x <<< n) ||| y).toNat = x.toNat * 2 ^ n.toNat + y.toNat := by
  have hn' : n.toNat < 32 := hn
  rw [UInt32.toNat_or, UInt32.toNat_shiftLeft, Nat.mod_eq_of_lt hn', Nat.shiftLeft_eq,
    Nat.mod_eq_of_lt hx, ← Nat.shiftLeft_eq, ← Nat.shiftLeft_add_eq_or_of_lt hy, Nat.shiftLeft_eq]

/-- Four bytes shifted to their places. -/
theorem shiftLeft_or_eq_wordOf (b₀ b₁ b₂ b₃ : UInt8) :
    (b₀.toUInt32 <<< 24) ||| (b₁.toUInt32 <<< 16) ||| (b₂.toUInt32 <<< 8) ||| b₃.toUInt32 =
      UInt32.ofNat (wordOf [b₃, b₂, b₁, b₀]) := by
  have h₀ := b₀.toNat_lt
  have h₁ := b₁.toNat_lt
  have h₂ := b₂.toNat_lt
  have h₃ := b₃.toNat_lt
  have hlow : ((b₂.toUInt32 <<< 8) ||| b₃.toUInt32).toNat = b₂.toNat * 256 + b₃.toNat :=
    toNat_shiftLeft_or (by decide) (by simp; omega) (by simp; omega)
  have hmiddle : ((b₁.toUInt32 <<< 16) ||| ((b₂.toUInt32 <<< 8) ||| b₃.toUInt32)).toNat =
      b₁.toNat * 65536 + (b₂.toNat * 256 + b₃.toNat) := by
    rw [← hlow]
    exact toNat_shiftLeft_or (by decide) (by simp; omega) (by rw [hlow]; simp; omega)
  have hword := @toNat_shiftLeft_or b₀.toUInt32
    ((b₁.toUInt32 <<< 16) ||| ((b₂.toUInt32 <<< 8) ||| b₃.toUInt32)) 24 (by decide)
    (by simp; omega) (by rw [hmiddle]; simp; omega)
  refine UInt32.toNat_inj.mp ?_
  rw [UInt32.or_assoc, UInt32.or_assoc, hword, hmiddle]
  simp [wordOf]
  omega

/-- A byte of a word. -/
theorem toUInt8_shiftRight {n : Nat} (hn : n < 32) (x : UInt32) :
    ((x >>> UInt32.ofNat n) &&& 255).toUInt8 = UInt8.ofNat (x.toNat / 2 ^ n) := by
  have hmask := Nat.and_two_pow_sub_one_eq_mod (x.toNat / 2 ^ n) 8
  have hn' : n % 2 ^ 32 % 32 = n := by omega
  refine UInt8.toNat_inj.mp ?_
  rw [UInt32.toNat_toUInt8, UInt32.toNat_and, UInt32.toNat_shiftRight, UInt32.toNat_ofNat', hn',
    Nat.shiftRight_eq_div_pow, UInt8.toNat_ofNat']
  exact (congrArg (· % 2 ^ 8) hmask).trans (Nat.mod_mod _ _)

/-! ### Compression -/

/-- The five words of a hash. -/
@[ext] structure State where
  a : UInt32
  b : UInt32
  c : UInt32
  d : UInt32
  e : UInt32
deriving DecidableEq

/-- The initial hash. -/
def State.init : State := ⟨0x67452301, 0xefcdab89, 0x98badcfe, 0x10325476, 0xc3d2e1f0⟩

def State.add (h s : State) : State := ⟨h.a + s.a, h.b + s.b, h.c + s.c, h.d + s.d, h.e + s.e⟩

def State.words (h : State) : List UInt32 := [h.a, h.b, h.c, h.d, h.e]

/-- One round, with the words of a schedule. -/
def round (w : Nat → UInt32) (s : State) (t : Nat) : State where
  a := rotl 5 s.a + f t s.b s.c s.d + s.e + k t + w t
  b := s.a
  c := rotl 30 s.b
  d := s.c
  e := s.d

/-- A block compressed into a hash. -/
def compress (h : State) (block : List UInt8) : State :=
  h.add ((List.range 80).foldl (round (schedule block)) h)

/-! ### Padding -/

/-- The bytes of a number, the highest first. -/
def bigEndian (w n : Nat) : List UInt8 := (littleEndian w n).reverse

@[simp] theorem length_bigEndian (w n : Nat) : (bigEndian w n).length = w := by
  rw [bigEndian, List.length_reverse, littleEndian_length]

/-- The bytes of two words that follow each other. -/
theorem bigEndian_add_mul {v low : Nat} (hlow : low < 256 ^ v) (w high : Nat) :
    bigEndian (w + v) (low + high * 256 ^ v) = bigEndian w high ++ bigEndian v low := by
  have hpos : 0 < 256 ^ v := Nat.zero_lt_of_lt hlow
  rw [bigEndian, Nat.add_comm w, littleEndian_add, littleEndian_add_mul, List.reverse_append,
    Nat.add_mul_div_right _ _ hpos, Nat.div_eq_of_lt hlow, Nat.zero_add, bigEndian, bigEndian]

/-- Bytes tell the number, up to their range. -/
theorem bigEndian_inj {w n n' : Nat} (hn : n < 256 ^ w) (hn' : n' < 256 ^ w) :
    bigEndian w n = bigEndian w n' ↔ n = n' := by
  refine ⟨fun h => ?_, fun h => h ▸ rfl⟩
  have hword := congrArg wordOf (List.reverse_injective h)
  rwa [wordOf_littleEndian, wordOf_littleEndian, Nat.mod_eq_of_lt hn,
    Nat.mod_eq_of_lt hn'] at hword

/-- The zero bytes after the byte of the one bit, as few as end 8 bytes before a block. -/
def zeros (n : Nat) : Nat := (119 - n % 64) % 64

theorem add_zeros_mod (n : Nat) : (n + 1 + zeros n) % 64 = 56 := by
  rw [zeros]
  omega

/-- A message padded, with a number as its length in bits. -/
def padWith (message : List UInt8) (bits : Nat) : List UInt8 :=
  message ++ 0x80 :: (List.replicate (zeros message.length) 0 ++ bigEndian 8 bits)

/-- A message padded with its own length. -/
def pad (message : List UInt8) : List UInt8 := padWith message (8 * message.length)

/-- The padding fills the last block. -/
theorem dvd_length_padWith (message : List UInt8) (bits : Nat) :
    64 ∣ (padWith message bits).length := by
  have hmod := add_zeros_mod message.length
  simp only [padWith, List.length_append, List.length_cons, List.length_replicate,
    length_bigEndian]
  omega

/-- The padding tells the length. -/
theorem padWith_inj {message : List UInt8} {bits bits' : Nat} (h : bits < 256 ^ 8)
    (h' : bits' < 256 ^ 8) : padWith message bits = padWith message bits' ↔ bits = bits' := by
  rw [padWith, padWith, List.append_cancel_left_eq, List.cons_inj_right,
    List.append_cancel_left_eq, bigEndian_inj h h']

/-- The blocks of a padded message tell it. -/
theorem rows_padWith_inj {message : List UInt8} {bits bits' : Nat} (h : bits < 256 ^ 8)
    (h' : bits' < 256 ^ 8) :
    Rows.rows 64 (padWith message bits) = Rows.rows 64 (padWith message bits') ↔ bits = bits' := by
  refine ⟨fun hrows => ?_, fun hbits => hbits ▸ rfl⟩
  have hflatten := congrArg List.flatten hrows
  rw [Rows.flatten_rows (by simp) (dvd_length_padWith message bits),
    Rows.flatten_rows (by simp) (dvd_length_padWith message bits')] at hflatten
  exact (padWith_inj h h').mp hflatten

/-! ### The digest -/

/-- Whole blocks compressed one after the other. -/
def hash (blocks : List (List UInt8)) : State := blocks.foldl compress State.init

def State.bytes (h : State) : List UInt8 := h.words.flatMap fun x => bigEndian 4 x.toNat

/-- The bytes of a hash tell it. -/
theorem State.bytes_injective : Function.Injective State.bytes := by
  have hword : ∀ x y : UInt32, bigEndian 4 x.toNat = bigEndian 4 y.toNat → x = y :=
    fun x y h => UInt32.toNat_inj.mp ((bigEndian_inj x.toNat_lt y.toNat_lt).mp h)
  intro h h' heq
  simp only [bytes, words, List.flatMap_cons, List.flatMap_nil, List.append_nil] at heq
  obtain ⟨ha, heq⟩ := List.append_inj heq (by simp)
  obtain ⟨hb, heq⟩ := List.append_inj heq (by simp)
  obtain ⟨hc, heq⟩ := List.append_inj heq (by simp)
  obtain ⟨hd, he⟩ := List.append_inj heq (by simp)
  exact State.ext (hword _ _ ha) (hword _ _ hb) (hword _ _ hc) (hword _ _ hd) (hword _ _ he)

/-- Different blocks with one hash. -/
def Collides (blocks blocks' : List (List UInt8)) : Prop :=
  blocks ≠ blocks' ∧ hash blocks = hash blocks'

/-- The digest of a message. -/
def digest (message : List UInt8) : List UInt8 := (hash (Rows.rows 64 (pad message))).bytes

end Sha1
