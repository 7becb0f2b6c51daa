import Sihd.Lib.OnesComplement
import Sihd.Net.IpAddr

/-!
# The internet checksum

The sum is taken over the words as they are in memory, with 32 bits; its carries
are folded twice. A packet that carries the checksum, or all ones for 0, has the
checksum 0, whatever the order of the bytes of the host.
-/

namespace Sihd.Net

/-- The word that two bytes are in memory. -/
def memoryWord (order : ByteOrder) (first second : UInt8) : UInt16 :=
  match order with
  | .little => first.toUInt16 + 256 * second.toUInt16
  | .big => 256 * first.toUInt16 + second.toUInt16

/-- The two bytes of a word in memory. -/
def memoryBytes (order : ByteOrder) (word : UInt16) : List UInt8 :=
  match order with
  | .little => [word.toUInt8, (word >>> 8).toUInt8]
  | .big => [(word >>> 8).toUInt8, word.toUInt8]

/-- The loop of `checksum`, and its odd byte. -/
def addWords (order : ByteOrder) : List UInt8 → UInt32 → UInt32
  | first :: second :: bytes, sum =>
      addWords order bytes (sum + (memoryWord order first second).toUInt32)
  | [last], sum => sum + (memoryWord order last 0).toUInt32
  | [], sum => sum

def checksum (order : ByteOrder) (bytes : List UInt8) : UInt16 :=
  let sum := addWords order bytes 0
  let sum := (sum >>> 16) + (sum &&& 0xffff)
  let sum := sum + (sum >>> 16)
  (~~~sum).toUInt16

/-- A packet with another value in the checksum field of its ICMP header. -/
def setChecksum (order : ByteOrder) (packet : List UInt8) (value : UInt16) : List UInt8 :=
  packet.take 2 ++ memoryBytes order value ++ packet.drop 4

/-- What `send_to` does to the packet before it is sent. -/
def fillChecksum (order : ByteOrder) (packet : List UInt8) : List UInt8 :=
  let packet := setChecksum order packet 0
  let sum := checksum order packet
  let packet := setChecksum order packet sum
  if sum = 0 then setChecksum order packet 0xffff else packet

/-- The words of a buffer, the last odd byte with a zero behind it. -/
def memoryWords (order : ByteOrder) : List UInt8 → List Nat
  | first :: second :: bytes => (memoryWord order first second).toNat :: memoryWords order bytes
  | [last] => [(memoryWord order last 0).toNat]
  | [] => []

variable {order : ByteOrder} {bytes packet : List UInt8}

theorem memoryWords_le (order : ByteOrder) (bytes : List UInt8) :
    ∀ w ∈ memoryWords order bytes, w ≤ 65535 := by
  fun_induction memoryWords order bytes with
  | case1 first second bytes ih =>
    rw [List.forall_mem_cons]
    exact ⟨Nat.le_of_lt_succ (UInt16.toNat_lt _), ih⟩
  | case2 last =>
    rw [List.forall_mem_singleton]
    exact Nat.le_of_lt_succ (UInt16.toNat_lt _)
  | case3 => simp

theorem sum_memoryWords_le (order : ByteOrder) (bytes : List UInt8) :
    (memoryWords order bytes).sum ≤ (bytes.length + 1) / 2 * 65535 := by
  fun_induction memoryWords order bytes with
  | case1 first second bytes ih =>
    have hword := UInt16.toNat_lt (memoryWord order first second)
    rw [List.sum_cons, List.length_cons, List.length_cons]
    omega
  | case2 last =>
    have hword := UInt16.toNat_lt (memoryWord order last 0)
    rw [List.sum_singleton, List.length_singleton]
    omega
  | case3 => simp

theorem toNat_addWords (order : ByteOrder) (bytes : List UInt8) (sum : UInt32) :
    (addWords order bytes sum).toNat = (sum.toNat + (memoryWords order bytes).sum) % 2 ^ 32 := by
  fun_induction addWords order bytes sum with
  | case1 sum first second bytes ih =>
    rw [ih, memoryWords, List.sum_cons, UInt32.toNat_add, UInt16.toNat_toUInt32,
      Nat.mod_add_mod, Nat.add_assoc]
  | case2 sum last => simp [memoryWords, UInt32.toNat_add]
  | case3 sum => simp [memoryWords, Nat.mod_eq_of_lt (UInt32.toNat_lt sum)]

theorem toNat_fold (sum : UInt32) :
    ((sum >>> 16) + (sum &&& 0xffff) : UInt32).toNat = sum.toNat / 65536 + sum.toNat % 65536 := by
  have hlt := sum.toNat_lt
  have hhigh : (sum >>> 16).toNat = sum.toNat / 65536 := by
    rw [UInt32.toNat_shiftRight]
    exact Nat.shiftRight_eq_div_pow _ _
  have hlow : (sum &&& 0xffff).toNat = sum.toNat % 65536 := by
    rw [UInt32.toNat_and]
    exact Nat.and_two_pow_sub_one_eq_mod _ 16
  rw [UInt32.toNat_add, hhigh, hlow, Nat.mod_eq_of_lt (by omega)]

theorem toNat_checksum (h : (memoryWords order bytes).sum < 2 ^ 32) :
    (checksum order bytes).toNat = 65535 - residue 65535 (memoryWords order bytes).sum := by
  have hsum : (addWords order bytes 0).toNat = (memoryWords order bytes).sum := by
    rw [toNat_addWords, UInt32.toNat_zero, Nat.zero_add, Nat.mod_eq_of_lt h]
  have hfold := toNat_fold (addWords order bytes 0)
  unfold checksum
  dsimp only
  generalize (addWords order bytes 0 >>> 16) + (addWords order bytes 0 &&& 0xffff) = folded at hfold ⊢
  have hcarry : (folded >>> 16).toNat = folded.toNat / 65536 := by
    rw [UInt32.toNat_shiftRight]
    exact Nat.shiftRight_eq_div_pow _ _
  rw [hsum] at hfold
  rw [← foldCarries_eq h, foldCarries, UInt32.toNat_toUInt16, UInt32.toNat_not, UInt32.toNat_add,
    hcarry, hfold]
  simp only [UInt32.size]
  omega

/-- The complement of the sum in one's complement. -/
theorem checksum_eq (h : (memoryWords order bytes).sum < 2 ^ 32) :
    checksum order bytes = ~~~UInt16.ofNat (endAroundSum 65535 (memoryWords order bytes)) := by
  have hle := residue_le (m := 65535) (by decide) (memoryWords order bytes).sum
  have hsum : (UInt16.ofNat (residue 65535 (memoryWords order bytes).sum)).toNat =
      residue 65535 (memoryWords order bytes).sum :=
    UInt16.toNat_ofNat_of_lt' (Nat.lt_succ_of_le hle)
  rw [endAroundSum_eq (by decide) (memoryWords_le order bytes)]
  refine UInt16.toNat_inj.mp ?_
  rw [toNat_checksum h, UInt16.toNat_not, hsum]
  rfl

theorem sum_memoryWords_lt (h : bytes.length ≤ 65535) : (memoryWords order bytes).sum < 2 ^ 32 := by
  have hle := sum_memoryWords_le order bytes
  omega

/-! ## The checksum of a packet -/

theorem exists_memoryBytes (order : ByteOrder) (value : UInt16) :
    ∃ first second, memoryBytes order value = [first, second] ∧
      memoryWord order first second = value := by
  have hlt := value.toNat_lt
  have hlow : value.toUInt8.toUInt16.toNat = value.toNat % 256 := by simp
  have hhigh : (value >>> 8).toUInt8.toUInt16.toNat = value.toNat / 256 := by
    have hshift : (value >>> 8).toNat = value.toNat / 256 := by
      rw [UInt16.toNat_shiftRight]
      exact Nat.shiftRight_eq_div_pow _ _
    rw [UInt8.toNat_toUInt16, UInt16.toNat_toUInt8, hshift]
    omega
  have h256 : (256 : UInt16).toNat = 256 := rfl
  cases order with
  | little =>
    refine ⟨_, _, rfl, UInt16.toNat_inj.mp ?_⟩
    rw [memoryWord, UInt16.toNat_add, UInt16.toNat_mul, hlow, hhigh, h256]
    omega
  | big =>
    refine ⟨_, _, rfl, UInt16.toNat_inj.mp ?_⟩
    rw [memoryWord, UInt16.toNat_add, UInt16.toNat_mul, hlow, hhigh, h256]
    omega

theorem sum_setChecksum (hlength : 4 ≤ packet.length) (order : ByteOrder) (value : UInt16) :
    (memoryWords order (setChecksum order packet value)).sum =
      (memoryWords order (packet.take 2)).sum + value.toNat +
        (memoryWords order (packet.drop 4)).sum := by
  obtain ⟨first, second, hbytes, hword⟩ := exists_memoryBytes order value
  match packet, hlength with
  | b₀ :: b₁ :: b₂ :: b₃ :: rest, _ => simp [setChecksum, hbytes, memoryWords, hword, Nat.add_assoc]

theorem setChecksum_setChecksum (hlength : 4 ≤ packet.length) (order : ByteOrder)
    (value value' : UInt16) :
    setChecksum order (setChecksum order packet value) value' = setChecksum order packet value' := by
  obtain ⟨first, second, hbytes, -⟩ := exists_memoryBytes order value
  match packet, hlength with
  | b₀ :: b₁ :: b₂ :: b₃ :: rest, _ => simp [setChecksum, hbytes]

/-- A packet verifies when its sum, without the checksum, leaves room for it. -/
theorem checksum_fillChecksum (hlength : 4 ≤ packet.length)
    (h : (memoryWords order (setChecksum order packet 0)).sum + 65535 < 2 ^ 32) :
    checksum order (fillChecksum order packet) = 0 := by
  have hsum : ∀ value, (memoryWords order (setChecksum order packet value)).sum =
      (memoryWords order (setChecksum order packet 0)).sum + value.toNat := by
    intro value
    rw [sum_setChecksum hlength, sum_setChecksum hlength, UInt16.toNat_zero]
    omega
  have hvalue := @toNat_checksum order (setChecksum order packet 0) (by omega)
  have hfill : ∃ value, fillChecksum order packet = setChecksum order packet value ∧
      value.toNat =
        if 65535 - residue 65535 (memoryWords order (setChecksum order packet 0)).sum = 0 then 65535
        else 65535 - residue 65535 (memoryWords order (setChecksum order packet 0)).sum := by
    unfold fillChecksum
    dsimp only
    rw [← hvalue]
    by_cases hzero : checksum order (setChecksum order packet 0) = 0
    · refine ⟨0xffff, ?_, ?_⟩
      · rw [if_pos hzero, setChecksum_setChecksum hlength, setChecksum_setChecksum hlength]
      · simp [hzero]
    · refine ⟨checksum order (setChecksum order packet 0), ?_, ?_⟩
      · rw [if_neg hzero, setChecksum_setChecksum hlength]
      · rw [if_neg (by simpa [← UInt16.toNat_inj] using hzero)]
  obtain ⟨value, hpacket, hvalue'⟩ := hfill
  have hlt := value.toNat_lt
  refine UInt16.toNat_inj.mp ?_
  rw [hpacket, toNat_checksum (by rw [hsum]; omega), hsum, hvalue', residue_add_complement (by decide)]
  rfl

/-- The checksum is exact for all that an IP datagram can hold, and a packet that
carries it verifies up to twice that length. -/
theorem checksum_spec (order : ByteOrder) :
    (∀ bytes : List UInt8, bytes.length ≤ 65535 →
      checksum order bytes = ~~~UInt16.ofNat (endAroundSum 65535 (memoryWords order bytes))) ∧
    ∀ packet : List UInt8, 8 ≤ packet.length → packet.length ≤ 131074 →
      checksum order (fillChecksum order packet) = 0 := by
  constructor
  · exact fun bytes hlength => checksum_eq (sum_memoryWords_lt hlength)
  · intro packet hmin hmax
    refine checksum_fillChecksum (by omega) ?_
    have htake := sum_memoryWords_le order (packet.take 2)
    have hdrop := sum_memoryWords_le order (packet.drop 4)
    rw [List.length_take_of_le (by omega)] at htake
    rw [List.length_drop] at hdrop
    rw [sum_setChecksum (by omega), UInt16.toNat_zero]
    omega

/-- Three bytes, and an echo request that needs all ones: its words add up to all ones. -/
theorem checksum_spec_echo :
    checksum .little [1, 2, 3] = 0xfdfb ∧
      checksum .big (fillChecksum .big [8, 0, 0, 0, 0xf7, 0xff, 0, 0]) = 0 := by
  refine ⟨?_, (checksum_spec .big).2 [8, 0, 0, 0, 0xf7, 0xff, 0, 0] (by decide) (by decide)⟩
  rw [(checksum_spec .little).1 [1, 2, 3] (by decide)]
  decide

end Sihd.Net
