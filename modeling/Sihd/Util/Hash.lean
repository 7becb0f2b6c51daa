import Sihd.Lib.Sha1

/-!
# Hashes

`sha1` hashes a message in a context: the words of the hash, the length in bits as two
words, and a buffer for what does not fill a block yet. The context keeps beside its words
the blocks that they come from. The padding is fed through the same update as the message,
and the length is taken from the two words.
-/

namespace Sihd.Util.Hash

open Sha1 (State)

/-! ### The transformation -/

/-- Rotate left circular shift. -/
def rol (value bits : UInt32) : UInt32 := (value <<< bits) ||| (value >>> (32 - bits))

def loadWord (buffer : List UInt8) (i : Nat) : UInt32 :=
  ((buffer.getD (i * 4) 0).toUInt32 <<< 24) ||| ((buffer.getD (i * 4 + 1) 0).toUInt32 <<< 16) |||
    ((buffer.getD (i * 4 + 2) 0).toUInt32 <<< 8) ||| (buffer.getD (i * 4 + 3) 0).toUInt32

/-- The word `i` of the schedule, after the ones before it. -/
def extendSchedule (w : List UInt32) (i : Nat) : List UInt32 :=
  w ++ [rol (w.getD (i - 3) 0 ^^^ w.getD (i - 8) 0 ^^^ w.getD (i - 14) 0 ^^^ w.getD (i - 16) 0) 1]

/-- Prepare message schedule. -/
def prepareSchedule (buffer : List UInt8) : List UInt32 :=
  (List.range' 16 64).foldl extendSchedule ((List.range 16).map (loadWord buffer))

/-- One turn of the main loop, on the working variables. -/
def mainLoop (w : List UInt32) (v : State) (i : Nat) : State :=
  let f :=
    if i < 20 then (v.b &&& v.c) ||| (~~~v.b &&& v.d)
    else if i < 40 then v.b ^^^ v.c ^^^ v.d
    else if i < 60 then (v.b &&& v.c) ||| (v.b &&& v.d) ||| (v.c &&& v.d)
    else v.b ^^^ v.c ^^^ v.d
  let k :=
    if i < 20 then 0x5A827999
    else if i < 40 then 0x6ED9EBA1
    else if i < 60 then 0x8F1BBCDC
    else 0xCA62C1D6
  let temp := rol v.a 5 + f + v.e + k + w.getD i 0
  { a := temp, b := v.a, c := rol v.b 30, d := v.c, e := v.d }

def sha1Transform (state : State) (buffer : List UInt8) : State :=
  let v := (List.range 80).foldl (mainLoop (prepareSchedule buffer)) state
  { a := state.a + v.a
    b := state.b + v.b
    c := state.c + v.c
    d := state.d + v.d
    e := state.e + v.e }

theorem loadWord_eq (buffer : List UInt8) (i : Nat) : loadWord buffer i = Sha1.word buffer i := by
  rw [loadWord, Sha1.shiftLeft_or_eq_wordOf, Sha1.word, Nat.mul_comm]

/-- The words so far are those of the schedule. -/
theorem foldl_extendSchedule (buffer : List UInt8) (n : Nat) :
    (List.range' 16 n).foldl extendSchedule ((List.range 16).map (loadWord buffer)) =
      (List.range (16 + n)).map (Sha1.schedule buffer) := by
  induction n with
  | zero =>
    refine List.map_congr_left fun i hi => ?_
    rw [loadWord_eq, Sha1.schedule_of_lt (List.mem_range.mp hi)]
  | succ n ih =>
    have hword : ∀ i < 16 + n,
        ((List.range (16 + n)).map (Sha1.schedule buffer)).getD i 0 = Sha1.schedule buffer i := by
      intro i hi
      simp [List.getD, hi]
    rw [List.range'_concat, List.foldl_concat, ih, Nat.one_mul, extendSchedule,
      hword _ (by omega), hword _ (by omega), hword _ (by omega), hword _ (by omega),
      ← Nat.add_assoc, List.range_succ, List.map_append, List.map_singleton,
      Sha1.schedule_of_le (Nat.le_add_right 16 n)]
    rfl

theorem getD_prepareSchedule {i : Nat} (hi : i < 80) (buffer : List UInt8) :
    (prepareSchedule buffer).getD i 0 = Sha1.schedule buffer i := by
  rw [prepareSchedule, foldl_extendSchedule]
  simp [List.getD, hi]

theorem mainLoop_eq {i : Nat} (hi : i < 80) (buffer : List UInt8) (v : State) :
    mainLoop (prepareSchedule buffer) v i = Sha1.round (Sha1.schedule buffer) v i := by
  rw [mainLoop, getD_prepareSchedule hi, Sha1.round, Sha1.f, Sha1.k, Sha1.ch_eq_or,
    Sha1.maj_eq_or]
  split_ifs <;> rfl

/-- The transformation of a block is its compression. -/
theorem sha1Transform_eq (state : State) (buffer : List UInt8) :
    sha1Transform state buffer = Sha1.compress state buffer := by
  have hloop := List.foldl_ext (mainLoop (prepareSchedule buffer))
    (Sha1.round (Sha1.schedule buffer)) state
    fun v i hi => mainLoop_eq (List.mem_range.mp hi) buffer v
  rw [sha1Transform, hloop]
  rfl

/-! ### The context -/

/-- The words of a hash, and the blocks that were transformed into them. -/
structure Transformed where
  state : State
  blocks : List (List UInt8)

/-- A block transformed. -/
def Transformed.block (t : Transformed) (buffer : List UInt8) : Transformed :=
  ⟨sha1Transform t.state buffer, t.blocks ++ [buffer]⟩

structure SHA1Context where
  transformed : Transformed
  /-- The bits so far, the lower half. -/
  count₀ : UInt32
  /-- The upper half. -/
  count₁ : UInt32
  buffer : List UInt8

/-- Initialize a context. The buffer is what the memory holds. -/
def sha1Init (memory : Fin 64 → UInt8) : SHA1Context where
  transformed := ⟨State.init, []⟩
  count₀ := 0
  count₁ := 0
  buffer := List.ofFn memory

/-- The count after `len` bytes more. The lower half is a word, and it is compared with
all the bits of the length. -/
def SHA1Context.addCount (ctx : SHA1Context) (len : Nat) : SHA1Context :=
  let bits := len * 2 ^ 3 % 2 ^ 64
  let count₀ := UInt32.ofNat (ctx.count₀.toNat + bits)
  let count₁ := if count₀.toNat < bits then ctx.count₁ + 1 else ctx.count₁
  { ctx with count₀ := count₀, count₁ := count₁ + UInt32.ofNat (len / 2 ^ 29) }

/-- The whole blocks of the data from `i` on, and where the loop ends. -/
def transformBlocks (data : List UInt8) (t : Transformed) (i : Nat) : Transformed × Nat :=
  if i + 63 < data.length then
    transformBlocks data (t.block ((data.drop i).take 64)) (i + 64)
  else (t, i)
termination_by data.length - i

/-- Update the context with new data. -/
def sha1Update (ctx : SHA1Context) (data : List UInt8) : SHA1Context :=
  let j := (ctx.count₀ >>> 3 &&& 63).toNat
  let ctx := ctx.addCount data.length
  if 63 < j + data.length then
    let i := 64 - j
    let buffer := overwrite ctx.buffer j (data.take i)
    let (transformed, i) := transformBlocks data (ctx.transformed.block buffer) i
    { ctx with transformed, buffer := overwrite buffer 0 (data.drop i) }
  else { ctx with buffer := overwrite ctx.buffer j data }

/-! ### Updates -/

theorem toNat_addCount (ctx : SHA1Context) (len : Nat) :
    (ctx.addCount len).count₀.toNat = (ctx.count₀.toNat + 8 * len) % 2 ^ 32 := by
  simp only [SHA1Context.addCount, UInt32.toNat_ofNat']
  omega

theorem count₀_sha1Update (ctx : SHA1Context) (data : List UInt8) :
    (sha1Update ctx data).count₀ = (ctx.addCount data.length).count₀ := by
  simp only [sha1Update]
  split_ifs <;> rfl

/-- The place in the buffer. -/
theorem toNat_place (x : UInt32) : (x >>> 3 &&& 63).toNat = x.toNat / 8 % 64 := by
  have hmask := Nat.and_two_pow_sub_one_eq_mod (x.toNat / 8) 6
  rw [UInt32.toNat_and, UInt32.toNat_shiftRight, Nat.shiftRight_eq_div_pow]
  exact hmask

/-- The loop takes the whole rows of what it starts at, and ends at the rest. -/
theorem absorb_transformBlocks (data : List UInt8) (t : Transformed) (i : Nat) :
    Rows.absorb Transformed.block 64 t (data.drop i) =
      ((transformBlocks data t i).1, data.drop (transformBlocks data t i).2) := by
  fun_induction transformBlocks data t i with
  | case1 t i hi ih =>
    rw [Rows.absorb_of_le (by simp) (by rw [List.length_drop]; omega), List.drop_drop]
    exact ih
  | case2 t i hi =>
    rw [Rows.absorb_of_lt (by rw [List.length_drop]; omega)]

/-- The context after a message: the whole blocks of it were transformed, and the rest is
in front of the buffer. -/
structure Holds (ctx : SHA1Context) (message : List UInt8) : Prop where
  absorbed : Rows.absorb Transformed.block 64 ⟨State.init, []⟩ message =
    (ctx.transformed, ctx.buffer.take (message.length % 64))
  count₀ : ctx.count₀.toNat = 8 * message.length % 2 ^ 32
  buffer : ctx.buffer.length = 64

theorem Holds.init (memory : Fin 64 → UInt8) : Holds (sha1Init memory) [] where
  absorbed := Rows.absorb_of_lt (by simp)
  count₀ := rfl
  buffer := List.length_ofFn

theorem Holds.place {ctx : SHA1Context} {message : List UInt8} (h : Holds ctx message) :
    (ctx.count₀ >>> 3 &&& 63).toNat = message.length % 64 := by
  rw [toNat_place, h.count₀]
  omega

/-- The rest and what comes after it. -/
theorem Holds.absorb_append {ctx : SHA1Context} {message : List UInt8} (h : Holds ctx message)
    (data : List UInt8) :
    Rows.absorb Transformed.block 64 ⟨State.init, []⟩ (message ++ data) =
      Rows.absorb Transformed.block 64 ctx.transformed
        (ctx.buffer.take (message.length % 64) ++ data) := by
  rw [Rows.absorb_append (by simp), h.absorbed]

/-- Data that does not fill the buffer. -/
theorem Holds.absorbed_of_le {ctx : SHA1Context} {message data : List UInt8}
    (h : Holds ctx message) (hle : message.length % 64 + data.length ≤ 63) :
    Rows.absorb Transformed.block 64 ⟨State.init, []⟩ (message ++ data) =
      (ctx.transformed, (overwrite ctx.buffer (message.length % 64) data).take
        ((message ++ data).length % 64)) := by
  have hbuffer := h.buffer
  have hlength : (message ++ data).length % 64 = message.length % 64 + data.length := by
    rw [List.length_append]
    omega
  have hshort : (ctx.buffer.take (message.length % 64) ++ data).length < 64 := by
    rw [List.length_append, List.length_take]
    omega
  rw [h.absorb_append, Rows.absorb_of_lt hshort, hlength, overwrite_take_end (by omega)]

/-- Data that fills the buffer: a block from the buffer, the blocks of the data, the rest. -/
theorem Holds.absorbed_of_lt {ctx : SHA1Context} {message data : List UInt8}
    (h : Holds ctx message) (hlt : 63 < message.length % 64 + data.length)
    {buffer : List UInt8} {transformed : Transformed} {i : Nat}
    (hblock : buffer = overwrite ctx.buffer (message.length % 64)
      (data.take (64 - message.length % 64)))
    (hblocks : transformBlocks data (ctx.transformed.block buffer) (64 - message.length % 64) =
      (transformed, i)) :
    Rows.absorb Transformed.block 64 ⟨State.init, []⟩ (message ++ data) =
        (transformed, (overwrite buffer 0 (data.drop i)).take ((message ++ data).length % 64)) ∧
      (overwrite buffer 0 (data.drop i)).length = 64 := by
  have hbuffer := h.buffer
  have hplace : message.length % 64 < 64 := Nat.mod_lt _ (by simp)
  have htaken : (data.take (64 - message.length % 64)).length = 64 - message.length % 64 :=
    List.length_take_of_le (by omega)
  have hfull : buffer = ctx.buffer.take (message.length % 64) ++
      data.take (64 - message.length % 64) := by
    rw [hblock, overwrite, List.drop_of_length_le (by omega), List.append_nil]
  have hfilled : buffer.length = 64 := by
    rw [hblock, overwrite_length (by omega), hbuffer]
  have habsorb : Rows.absorb Transformed.block 64 ⟨State.init, []⟩ (message ++ data) =
      (transformed, data.drop i) := by
    calc Rows.absorb Transformed.block 64 ⟨State.init, []⟩ (message ++ data)
        = Rows.absorb Transformed.block 64 ctx.transformed
            (buffer ++ data.drop (64 - message.length % 64)) := by
          rw [h.absorb_append, hfull, List.append_assoc, List.take_append_drop]
      _ = Rows.absorb Transformed.block 64 (ctx.transformed.block buffer)
            (data.drop (64 - message.length % 64)) := Rows.absorb_row (by simp) hfilled _
      _ = (transformed, data.drop i) := by rw [absorb_transformBlocks, hblocks]
  have hrest : (data.drop i).length = (message ++ data).length % 64 := by
    have hlength := Rows.length_absorb_snd (f := Transformed.block) (n := 64) (by simp)
      ⟨State.init, []⟩ (message ++ data)
    rwa [habsorb] at hlength
  have hend := @overwrite_take_end UInt8 buffer (data.drop i) 0 (Nat.zero_le _)
  rw [Nat.zero_add, hrest, List.take_zero, List.nil_append] at hend
  exact ⟨by rw [habsorb, hend], by rw [overwrite_length (by omega), hfilled]⟩

/-- An update goes on with the message. -/
theorem Holds.update {ctx : SHA1Context} {message : List UInt8} (h : Holds ctx message)
    (data : List UInt8) : Holds (sha1Update ctx data) (message ++ data) := by
  have hcount : (sha1Update ctx data).count₀.toNat = 8 * (message ++ data).length % 2 ^ 32 := by
    rw [count₀_sha1Update, toNat_addCount, h.count₀, List.length_append]
    omega
  refine ⟨?_, hcount, ?_⟩
  · simp only [sha1Update, h.place]
    split_ifs with hlt
    · exact (h.absorbed_of_lt hlt rfl rfl).1
    · exact h.absorbed_of_le (Nat.le_of_not_lt hlt)
  · simp only [sha1Update, h.place]
    split_ifs with hlt
    · exact (h.absorbed_of_lt hlt rfl rfl).2
    · have hbuffer := h.buffer
      have hlength : (overwrite ctx.buffer (message.length % 64) data).length =
          ctx.buffer.length := overwrite_length (by omega)
      exact hlength.trans hbuffer

/-! ### The end -/

/-- A byte of a word, as the loops at the end take it. -/
def byteOf (x : UInt32) (i : Nat) : UInt8 :=
  ((x >>> UInt32.ofNat ((3 - (i &&& 3)) * 8)) &&& 255).toUInt8

def finalCount (ctx : SHA1Context) : List UInt8 :=
  (List.range 8).map fun i => byteOf (if 4 ≤ i then ctx.count₀ else ctx.count₁) i

theorem and_504 (x : UInt32) : (x &&& 504).toNat = x.toNat / 8 % 64 * 8 := by
  have hmask := Nat.and_two_pow_sub_one_eq_mod (x.toNat / 8) 6
  have hshift : x.toNat &&& 504 = ((x.toNat >>> 3) &&& 63) <<< 3 := by
    refine Nat.eq_of_testBit_eq fun i => ?_
    have h504 : (504 : Nat) = 63 <<< 3 := rfl
    rw [h504, Nat.testBit_and, Nat.testBit_shiftLeft, Nat.testBit_shiftLeft, Nat.testBit_and,
      Nat.testBit_shiftRight]
    by_cases hi : 3 ≤ i
    · simp [hi]
    · simp [hi]
  rw [UInt32.toNat_and]
  refine hshift.trans ?_
  rw [Nat.shiftLeft_eq, Nat.shiftRight_eq_div_pow]
  exact congrArg (· * 8) hmask

/-- The test of the padding loop. -/
theorem and_504_eq_iff (x : UInt32) : x &&& 504 = 448 ↔ x.toNat / 8 % 64 = 56 := by
  rw [← UInt32.toNat_inj, and_504]
  constructor
  · intro h
    have h' : x.toNat / 8 % 64 * 8 = 448 := h
    omega
  · intro h
    rw [h]
    rfl

/-- Zeros until the length alone is missing. -/
def padZeros (ctx : SHA1Context) : SHA1Context :=
  if ctx.count₀ &&& 504 = 448 then ctx else padZeros (sha1Update ctx [0])
termination_by (120 - ctx.count₀.toNat / 8 % 64) % 64
decreasing_by
  rename_i h
  rw [and_504_eq_iff] at h
  rw [count₀_sha1Update, toNat_addCount, List.length_singleton]
  omega

/-- Finalize a hash. -/
def sha1Final (ctx : SHA1Context) : List UInt8 × SHA1Context :=
  let finalcount := finalCount ctx
  let ctx := padZeros (sha1Update ctx [0x80])
  let ctx := sha1Update ctx finalcount
  ((List.range 20).map fun i => byteOf (ctx.transformed.state.words.getD (i >>> 2) 0) i, ctx)

/-- The context of a whole message, and what it gives. -/
def sha1Run (memory : Fin 64 → UInt8) (data : List UInt8) : List UInt8 × SHA1Context :=
  sha1Final (sha1Update (sha1Init memory) data)

def sha1 (memory : Fin 64 → UInt8) (data : List UInt8) : List UInt8 := (sha1Run memory data).1

/-! ### The bytes at the end -/

theorem bytes_word (x : UInt32) :
    Sha1.bigEndian 4 x.toNat = [byteOf x 0, byteOf x 1, byteOf x 2, byteOf x 3] := by
  simp only [byteOf]
  rw [Sha1.toUInt8_shiftRight (by decide), Sha1.toUInt8_shiftRight (by decide),
    Sha1.toUInt8_shiftRight (by decide), Sha1.toUInt8_shiftRight (by decide)]
  simp [Sha1.bigEndian, littleEndian, Nat.div_div_eq_div_mul]

/-- The bits that a context has counted. -/
def SHA1Context.bits (ctx : SHA1Context) : Nat := ctx.count₀.toNat + ctx.count₁.toNat * 2 ^ 32

theorem SHA1Context.bits_lt (ctx : SHA1Context) : ctx.bits < 256 ^ 8 := by
  have h₀ := ctx.count₀.toNat_lt
  have h₁ := ctx.count₁.toNat_lt
  rw [bits]
  omega

theorem finalCount_eq (ctx : SHA1Context) : finalCount ctx = Sha1.bigEndian 8 ctx.bits := by
  have hwords := Sha1.bigEndian_add_mul (v := 4) ctx.count₀.toNat_lt 4 ctx.count₁.toNat
  refine Eq.trans ?_ hwords.symm
  rw [bytes_word, bytes_word]
  rfl

theorem bytes_state (state : State) :
    ((List.range 20).map fun i => byteOf (state.words.getD (i >>> 2) 0) i) = state.bytes := by
  simp only [State.bytes, State.words, List.flatMap, List.map, bytes_word]
  rfl

/-! ### The padding -/

theorem Holds.padZeros {ctx : SHA1Context} {message : List UInt8} (h : Holds ctx message) :
    Holds (padZeros ctx)
      (message ++ List.replicate ((120 - message.length % 64) % 64) 0) := by
  fun_induction Hash.padZeros ctx generalizing message with
  | case1 ctx hend =>
    have hzero : (120 - message.length % 64) % 64 = 0 := by
      rw [and_504_eq_iff, h.count₀] at hend
      omega
    rw [hzero, List.replicate_zero, List.append_nil]
    exact h
  | case2 ctx hgoes ih =>
    have hsucc : (120 - message.length % 64) % 64 =
        (120 - (message ++ [0]).length % 64) % 64 + 1 := by
      rw [and_504_eq_iff, h.count₀] at hgoes
      rw [List.length_append, List.length_singleton]
      omega
    have hnext := ih (h.update [0])
    rw [List.append_assoc, List.singleton_append, ← List.replicate_succ, ← hsucc] at hnext
    exact hnext

/-- The end of a hash: the padded message, with the bits that were counted. -/
theorem Holds.final {ctx : SHA1Context} {message : List UInt8} (h : Holds ctx message) :
    Holds (sha1Final ctx).2 (Sha1.padWith message ctx.bits) := by
  have hzeros : (120 - (message ++ [0x80]).length % 64) % 64 = Sha1.zeros message.length := by
    rw [List.length_append, List.length_singleton, Sha1.zeros]
    omega
  have hfinal : Holds (sha1Final ctx).2 _ := ((h.update [0x80]).padZeros).update (finalCount ctx)
  rw [hzeros, finalCount_eq, List.append_assoc, List.append_assoc, List.singleton_append] at hfinal
  exact hfinal

/-- What was transformed are the whole blocks of the message, and the words are their hash. -/
theorem Holds.transformed_eq {ctx : SHA1Context} {message : List UInt8} (h : Holds ctx message) :
    ctx.transformed = ⟨Sha1.hash (Rows.rows 64 message), Rows.rows 64 message⟩ := by
  have hstate : ∀ t r, Transformed.state (Transformed.block t r) = Sha1.compress t.state r :=
    fun t r => sha1Transform_eq t.state r
  have hblocks : ∀ t r, Transformed.blocks (Transformed.block t r) = t.blocks ++ [r] :=
    fun _ _ => rfl
  have hstates := Rows.absorb_map hstate (n := 64) (by simp) ⟨State.init, []⟩ message
  have hrows := Rows.absorb_map (g := fun rs r => rs ++ [r]) hblocks (n := 64) (by simp)
    ⟨State.init, []⟩ message
  rw [h.absorbed] at hstates hrows
  have hhash : ctx.transformed.state = Sha1.hash (Rows.rows 64 message) := by
    rw [Sha1.hash, ← Rows.absorb_fst _ (by simp)]
    exact (congrArg Prod.fst hstates).symm
  have hhistory : ctx.transformed.blocks = Rows.rows 64 message :=
    (congrArg Prod.fst hrows).symm
  rw [← hhash, ← hhistory]

/-! ### The digest -/

theorem bits_sha1Update (ctx : SHA1Context) (data : List UInt8) :
    (sha1Update ctx data).bits = (ctx.addCount data.length).bits := by
  simp only [sha1Update]
  split_ifs <;> rfl

/-- The upper half for the first bytes of a message: past a word of bits, one too much. -/
theorem toNat_count₁_init (memory : Fin 64 → UInt8) {len : Nat} (h : len < 2 ^ 61) :
    ((sha1Init memory).addCount len).count₁.toNat =
      ((if len < 2 ^ 29 then 0 else 1) + len / 2 ^ 29) % 2 ^ 32 := by
  have hbits : len * 2 ^ 3 % 2 ^ 64 = 8 * len := by omega
  have hcarry : (0 + 8 * len) % 2 ^ 32 < 8 * len ↔ ¬len < 2 ^ 29 := by omega
  simp only [SHA1Context.addCount, sha1Init, hbits, UInt32.toNat_ofNat', UInt32.toNat_zero, hcarry]
  split_ifs
  · simp
  · simp

/-- The bits are counted right exactly when a word can hold them. -/
theorem bits_init_eq_iff (memory : Fin 64 → UInt8) {len : Nat} (h : len < 2 ^ 61) :
    ((sha1Init memory).addCount len).bits = 8 * len ↔ len < 2 ^ 29 := by
  have hzero : (sha1Init memory).count₀.toNat = 0 := rfl
  rw [SHA1Context.bits, toNat_addCount, toNat_count₁_init memory h, hzero]
  split_ifs <;> omega

/-- The blocks that are transformed for a message. -/
def hashedBlocks (memory : Fin 64 → UInt8) (data : List UInt8) : List (List UInt8) :=
  Rows.rows 64 (Sha1.padWith data (sha1Update (sha1Init memory) data).bits)

theorem transformed_sha1Run (memory : Fin 64 → UInt8) (data : List UInt8) :
    (sha1Run memory data).2.transformed =
      ⟨Sha1.hash (hashedBlocks memory data), hashedBlocks memory data⟩ :=
  ((Holds.init memory).update data).final.transformed_eq

theorem sha1_eq_bytes (memory : Fin 64 → UInt8) (data : List UInt8) :
    sha1 memory data = (Sha1.hash (hashedBlocks memory data)).bytes := by
  have hstate := congrArg Transformed.state (transformed_sha1Run memory data)
  calc sha1 memory data = (sha1Run memory data).2.transformed.state.bytes := by
        rw [← bytes_state]
        rfl
    _ = (Sha1.hash (hashedBlocks memory data)).bytes := by rw [hstate]

/-- Bytes that can be hashed. -/
abbrev Message : Type := {data : List UInt8 // data.length < 2 ^ 61}

/-- `sha1` is SHA-1 on a message: it transforms the blocks of the message padded with its
length, and gives the digest. -/
structure IsSha1 (memory : Fin 64 → UInt8) (message : Message) : Prop where
  blocks : (sha1Run memory message.val).2.transformed.blocks = Rows.rows 64 (Sha1.pad message.val)
  digest : sha1 memory message.val = Sha1.digest message.val

/-- They are right exactly when a word can hold the bits of the message. -/
theorem hashedBlocks_eq_iff (memory : Fin 64 → UInt8) (message : Message) :
    hashedBlocks memory message.val = Rows.rows 64 (Sha1.pad message.val) ↔
      message.val.length < 2 ^ 29 := by
  have hlength : 8 * message.val.length < 256 ^ 8 := by
    have h := message.property
    omega
  rw [hashedBlocks, Sha1.pad, Sha1.rows_padWith_inj (SHA1Context.bits_lt _) hlength,
    bits_sha1Update, bits_init_eq_iff memory message.property]

theorem isSha1_iff_hashedBlocks (memory : Fin 64 → UInt8) (message : Message) :
    IsSha1 memory message ↔
      hashedBlocks memory message.val = Rows.rows 64 (Sha1.pad message.val) := by
  constructor
  · intro h
    have hblocks := h.blocks
    rw [transformed_sha1Run] at hblocks
    exact hblocks
  · intro h
    exact ⟨by rw [transformed_sha1Run]; exact h, by rw [sha1_eq_bytes, h, Sha1.digest]⟩

/-- `sha1` is SHA-1 exactly on the messages whose bits a word can hold. -/
theorem isSha1_iff (memory : Fin 64 → UInt8) (message : Message) :
    IsSha1 memory message ↔ message.val.length < 2 ^ 29 := by
  rw [isSha1_iff_hashedBlocks, hashedBlocks_eq_iff]

/-- Half a gibibyte of zeros. -/
theorem not_isSha1_zeros :
    ¬IsSha1 (fun _ => 0)
      ⟨List.replicate (2 ^ 29) 0, by rw [List.length_replicate]; decide⟩ := by
  rw [isSha1_iff_hashedBlocks, hashedBlocks_eq_iff, List.length_replicate]
  exact Nat.lt_irrefl _

/-- A longer message has its digest only where SHA-1 collides on the two paddings. -/
theorem digest_eq_iff (memory : Fin 64 → UInt8) (message : Message) :
    sha1 memory message.val = Sha1.digest message.val ↔
      message.val.length < 2 ^ 29 ∨
        Sha1.Collides (hashedBlocks memory message.val)
          (Rows.rows 64 (Sha1.pad message.val)) := by
  rw [sha1_eq_bytes, Sha1.digest, Sha1.State.bytes_injective.eq_iff, Sha1.Collides,
    ← hashedBlocks_eq_iff memory message]
  constructor
  · intro hhash
    by_cases hblocks : hashedBlocks memory message.val = Rows.rows 64 (Sha1.pad message.val)
    · exact Or.inl hblocks
    · exact Or.inr ⟨hblocks, hhash⟩
  · rintro (hblocks | hcollides)
    · rw [hblocks]
    · exact hcollides.2

end Sihd.Util.Hash
