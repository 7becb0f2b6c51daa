import Sihd.Core.Channel
import Sihd.Util.DataType

/-!
# The filter's rules on integer channels

`applyRule` reads the value at the trigger index of the channel a rule watches,
compares it with the trigger value of the rule and, when the outcome is the one
the rule asks for, writes a value to another channel, at once or in a task of
the scheduler. The bytes of the channel are compared as an `int64_t` that was
not sign-extended, and written from the lower end of it. `decides_and_stores_iff`
says when the rule decides on the value that the channel stores and writes that
value.
-/

namespace Sihd.Core

open Util

inductive RuleType
  | none
  | equal
  | superior
  | superiorEqual
  | inferior
  | inferiorEqual
  | byteAnd
  | byteOr
  | byteXor
  deriving DecidableEq

structure Rule where
  type : RuleType
  triggerIdx : Nat
  triggerValue : Value
  writeSameValue : Bool
  writeIdx : Nat
  writeValue : Value
  shouldMatch : Bool
  nanoDelay : Int

namespace DevFilter

/-- `InternalRule::verify`, for channels and values of integer type. -/
structure Verified (rule : Rule) (channelIn channelOut : Channel) : Prop where
  trigger : rule.triggerIdx < channelIn.array.size
  write : rule.writeIdx < channelOut.array.size

/-- The value that `applyRule` reads. -/
def inValue (channelIn : Channel) (rule : Rule) : Value :=
  .ofBuffer (channelIn.array.bufAt rule.triggerIdx) channelIn.array.type

/-- The `switch` of `applyRule`. -/
def matched (type : RuleType) (inValue trigger : Value) : Bool :=
  match type with
  | .equal => inValue.compare trigger == 0
  | .superior => decide (0 < inValue.compare trigger)
  | .superiorEqual => decide (0 ≤ inValue.compare trigger)
  | .inferior => decide (inValue.compare trigger < 0)
  | .inferiorEqual => decide (inValue.compare trigger ≤ 0)
  | .byteAnd => inValue.data &&& trigger.data != 0
  | .byteOr => inValue.data ||| trigger.data != 0
  | .byteXor => inValue.data ^^^ trigger.data != 0
  | .none => false

/-- `_rule_match`: the lower bytes of the value are written. -/
def ruleMatch (channelOut : Channel) (rule : Rule) (outVal : BitVec 64) (now : Int) :
    Option Channel.Written :=
  channelOut.write now
    ((littleEndian 8 outVal.toNat).take channelOut.array.type.size)
    (channelOut.array.byteIndex rule.writeIdx)

/-- What a rule did: nothing, a write of `outVal` at once, or a task that will
write it. -/
inductive Outcome
  | ignored
  | written (outVal : BitVec 64) (result : Option Channel.Written)
  | delayed (outVal : BitVec 64)

def applyRule (channelIn channelOut : Channel) (rule : Rule) (hasScheduler : Bool)
    (now : Int) : Outcome :=
  let value := inValue channelIn rule
  if rule.shouldMatch = matched rule.type value rule.triggerValue then
    let outVal := if rule.writeSameValue then value.data else rule.writeValue.data
    if 0 < rule.nanoDelay ∧ hasScheduler then .delayed outVal
    else .written outVal (ruleMatch channelOut rule outVal now)
  else .ignored

/-- The value that the rule writes, at once or in a task. -/
def Outcome.outVal? : Outcome → Option (BitVec 64)
  | ignored => none
  | written outVal _ => some outVal
  | delayed outVal => some outVal

/-! ### The relation that a rule stands for -/

/-- The rules that compare two numbers. -/
def RuleType.isRelation : RuleType → Bool
  | .equal | .superior | .superiorEqual | .inferior | .inferiorEqual => true
  | _ => false

/-- The relation between the channel's value and the trigger value. -/
def RuleType.Relates (type : RuleType) (v t : Int) : Prop :=
  match type with
  | .equal => v = t
  | .superior => t < v
  | .superiorEqual => t ≤ v
  | .inferior => v < t
  | .inferiorEqual => v ≤ t
  | _ => False

theorem matched_iff {type : RuleType} (h : RuleType.isRelation type = true)
    (value trigger : Value) :
    matched type value trigger = true ↔ RuleType.Relates type value.n trigger.n := by
  have hzero := value.compare_eq_zero_iff trigger
  have hpos := value.compare_pos_iff trigger
  have hneg := value.compare_neg_iff trigger
  cases type with
  | equal => simpa [matched, RuleType.Relates] using hzero
  | superior => simpa [matched, RuleType.Relates] using hpos
  | superiorEqual =>
      simp only [matched, RuleType.Relates, decide_eq_true_eq]
      omega
  | inferior => simpa [matched, RuleType.Relates] using hneg
  | inferiorEqual =>
      simp only [matched, RuleType.Relates, decide_eq_true_eq]
      omega
  | none | byteAnd | byteOr | byteXor => simp [RuleType.isRelation] at h

/-- The trigger value does not tell the value `v` from the integer `w` that is
compared in its place. -/
def Indistinct (type : RuleType) (v w t : Int) : Prop :=
  match type with
  | .equal => t ≠ v ∧ t ≠ w
  | .superior | .inferiorEqual => t < min v w ∨ max v w ≤ t
  | .superiorEqual | .inferior => t ≤ min v w ∨ max v w < t
  | _ => True

theorem relates_iff_relates_iff {type : RuleType} (h : RuleType.isRelation type = true)
    (v w t : Int) :
    (RuleType.Relates type w t ↔ RuleType.Relates type v t) ↔
      v = w ∨ Indistinct type v w t := by
  cases type with
  | none | byteAnd | byteOr | byteXor => simp [RuleType.isRelation] at h
  | equal | superior | superiorEqual | inferior | inferiorEqual =>
      simp only [RuleType.Relates, Indistinct]
      omega

/-- The integers of a channel type that are compared as they are. -/
def ComparedAsIs (type : DataType) (v : Int) : Prop :=
  type = .long ∨ 0 ≤ v ∧ v < 2 ^ 63

theorem shown_eq_self_iff (type : DataType) (v : Int) :
    v = Value.shown type v ↔ ComparedAsIs type v := by
  have hpos : (0 : Int) < 256 ^ type.size := by positivity
  unfold Value.shown ComparedAsIs
  split_ifs with hlong hneg hbig
  · simp [hlong]
  · constructor
    · intro heq
      omega
    · rintro (hl | ⟨hv, -⟩)
      · exact absurd hl hlong
      · omega
  · constructor
    · intro heq
      omega
    · rintro (hl | ⟨-, hv⟩)
      · exact absurd hl hlong
      · omega
  · exact ⟨fun _ => .inr ⟨by omega, by omega⟩, fun _ => rfl⟩

theorem inValue_n {channelIn : Channel} {rule : Rule}
    (hin : channelIn.array.type.isInteger = true)
    (h : rule.triggerIdx < channelIn.array.size) :
    (inValue channelIn rule).n =
      Value.shown channelIn.array.type (channelIn.valueAt rule.triggerIdx) := by
  have hlength := Channel.bytesAt_length h
  rw [Channel.bytesAt, List.length_take] at hlength
  exact Value.n_ofBuffer hin (by omega)

/-! ### What the rule writes -/

theorem inValue_toNat {channelIn : Channel} {rule : Rule}
    (h : rule.triggerIdx < channelIn.array.size) :
    (inValue channelIn rule).data.toNat = wordOf (channelIn.bytesAt rule.triggerIdx) := by
  have hlt := wordOf_lt (channelIn.bytesAt rule.triggerIdx)
  have hle : 256 ^ (channelIn.bytesAt rule.triggerIdx).length ≤ 256 ^ 8 := by
    apply Nat.pow_le_pow_right (by decide)
    rw [Channel.bytesAt_length h]
    exact DataType.size_le _
  simp only [inValue, Value.ofBuffer, BitVec.toNat_ofNat]
  exact Nat.mod_eq_of_lt (hlt.trans_le hle)

theorem applyRule_outVal? {channelIn channelOut : Channel} {rule : Rule}
    {hasScheduler : Bool} {now : Int} {outVal : BitVec 64}
    (hsame : rule.writeSameValue = true)
    (h : (applyRule channelIn channelOut rule hasScheduler now).outVal? = some outVal) :
    outVal = (inValue channelIn rule).data := by
  simp only [applyRule, hsame, if_true] at h
  split at h
  · split at h <;> exact (Option.some.inj h).symm
  · cases h

/-- The integer that the lower bytes of a word show. -/
theorem ruleMatch_valueAt {channelOut : Channel} {rule : Rule} (outVal : BitVec 64)
    (now : Int) (hfree : channelOut.notifying = false)
    (hout : channelOut.array.type.isInteger = true)
    (h : rule.writeIdx < channelOut.array.size) :
    ∃ w, ruleMatch channelOut rule outVal now = some w ∧
      w.channel.valueAt rule.writeIdx = channelOut.array.type.toInt
        (outVal.toNat % 256 ^ channelOut.array.type.size) := by
  have hsize := DataType.size_le channelOut.array.type
  have hlength : ((littleEndian 8 outVal.toNat).take
      channelOut.array.type.size).length = channelOut.array.type.size :=
    List.length_take_of_le (by rwa [littleEndian_length])
  obtain ⟨w, hw, -, htype, hbytes⟩ := Channel.write_element now hfree hlength
    (DataType.size_pos_of_isInteger hout) h
  refine ⟨w, hw, ?_⟩
  rw [Channel.valueAt, htype, hbytes, littleEndian_take hsize, wordOf_littleEndian]

/-- The bytes of `v` in the type `t`, with zeros above them, show `v` in the
type `t'` unless `t'` is wider and `v` negative. -/
theorem toInt_extended_iff {t t' : DataType} {n : Nat} (hn : n < 256 ^ t.size)
    (hholds : t'.Holds (t.toInt n)) :
    t'.toInt (n % 256 ^ t'.size) = t.toInt n ↔ 0 ≤ t.toInt n ∨ t'.size ≤ t.size := by
  rcases le_or_gt t'.size t.size with hle | hlt
  · refine ⟨fun _ => .inr hle, fun _ => ?_⟩
    have hdvd : (256 ^ t'.size : Int) ∣ 256 ^ t.size := pow_dvd_pow 256 hle
    have hmod : (n % 256 ^ t'.size : Nat) = (t.toInt n % 256 ^ t'.size).toNat := by
      have hn' : ((n % 256 ^ t'.size : Nat) : Int) = (n : Int) % 256 ^ t'.size := by
        push_cast
        rfl
      have hsame : t.toInt n % 256 ^ t'.size = (n : Int) % 256 ^ t'.size := by
        unfold DataType.toInt
        split_ifs
        · obtain ⟨k, hk⟩ := hdvd
          rw [hk, Int.sub_mul_emod_self_left]
        · rfl
      rw [hsame, ← hn', Int.toNat_natCast]
    rw [hmod]
    exact DataType.toInt_emod hholds
  · have hpow : 256 * 256 ^ t.size ≤ 256 ^ t'.size := by
      rw [← pow_succ']
      exact Nat.pow_le_pow_right (by decide) hlt
    have hmod : n % 256 ^ t'.size = n := Nat.mod_eq_of_lt (by omega)
    have hpos : t'.toInt n = n := by
      unfold DataType.toInt
      rw [if_neg]
      rintro ⟨-, hbig⟩
      omega
    have hcast : ((256 ^ t.size : Nat) : Int) = 256 ^ t.size := by
      push_cast
      rfl
    rw [hmod, hpos]
    unfold DataType.toInt
    split_ifs with hneg
    · zify at hn
      omega
    · simp

/-! ### The decision and the write -/

/-- On a channel of integer type a rule decides as the relation does on the
stored value exactly when that value is compared as it is or the trigger value
does not tell the two apart; and a rule that writes the same value stores it
exactly when it is not negative or the output is not wider. -/
theorem decides_and_stores_iff {channelIn channelOut : Channel} {rule : Rule} {t : Int}
    (hin : channelIn.array.type.isInteger = true)
    (hout : channelOut.array.type.isInteger = true)
    (hverified : Verified rule channelIn channelOut)
    (hrelation : RuleType.isRelation rule.type = true) (ht : rule.triggerValue.n = t) :
    ((matched rule.type (inValue channelIn rule) rule.triggerValue = true ↔
        RuleType.Relates rule.type (channelIn.valueAt rule.triggerIdx) t) ↔
      ComparedAsIs channelIn.array.type (channelIn.valueAt rule.triggerIdx) ∨
        Indistinct rule.type (channelIn.valueAt rule.triggerIdx)
          (Value.shown channelIn.array.type (channelIn.valueAt rule.triggerIdx)) t) ∧
    (∀ hasScheduler now later outVal, rule.writeSameValue = true →
      channelOut.notifying = false →
      channelOut.array.type.Holds (channelIn.valueAt rule.triggerIdx) →
      (applyRule channelIn channelOut rule hasScheduler now).outVal? = some outVal →
      ((∃ w, ruleMatch channelOut rule outVal later = some w ∧
          w.channel.valueAt rule.writeIdx = channelIn.valueAt rule.triggerIdx) ↔
        0 ≤ channelIn.valueAt rule.triggerIdx ∨
          channelOut.array.type.size ≤ channelIn.array.type.size)) := by
  refine ⟨?_, ?_⟩
  · rw [matched_iff hrelation, inValue_n hin hverified.trigger, ht,
      relates_iff_relates_iff hrelation, shown_eq_self_iff]
  · intro hasScheduler now later outVal hsame hfree hholds houtVal
    obtain ⟨w, hw, hvalue⟩ := ruleMatch_valueAt outVal later hfree hout hverified.write
    have hlt := wordOf_lt (channelIn.bytesAt rule.triggerIdx)
    rw [Channel.bytesAt_length hverified.trigger] at hlt
    have hiff := toInt_extended_iff hlt hholds
    rw [applyRule_outVal? hsame houtVal, inValue_toNat hverified.trigger] at hvalue
    rw [← Channel.valueAt, ← hvalue] at hiff
    rw [← hiff]
    constructor
    · rintro ⟨w', hw', hv⟩
      rw [hw] at hw'
      rw [Option.some.inj hw', hv]
    · intro hv
      exact ⟨w, hw, hv⟩

theorem byte_size_lt : 1 * DataType.byte.size < 2 ^ 63 := by
  decide

/-- A channel of one byte. -/
def byteChannel (b : UInt8) : Channel :=
  { Channel.create .byte 1 byte_size_lt with array := ⟨.byte, [b], 1, by simp [DataType.size]⟩ }

/-- `value > 0`, written to the first index of the output. -/
def positiveRule : Rule where
  type := .superior
  triggerIdx := 0
  triggerValue := .ofInt64 0
  writeSameValue := true
  writeIdx := 0
  writeValue := .ofInt64 0
  shouldMatch := true
  nanoDelay := 0

theorem decides_and_stores_five :
    (matched .superior (inValue (byteChannel 5) positiveRule) (.ofInt64 0) = true ↔
      (0 : Int) < 5) ∧
    ∃ w, ruleMatch (Channel.create .short 1) positiveRule 5 0 = some w ∧
      w.channel.valueAt 0 = 5 := by
  have hverified : Verified positiveRule (byteChannel 5) (Channel.create .short 1) :=
    ⟨by decide, by decide⟩
  obtain ⟨hdecides, hstores⟩ := decides_and_stores_iff (t := 0)
    (by decide) (by decide) hverified (by decide) (by decide)
  refine ⟨hdecides.mpr (.inl (.inr (by decide))), ?_⟩
  exact (hstores false 0 0 5 rfl rfl (by decide) rfl).mpr (.inl (by decide))

/-- The byte of -1 is compared as 255, and written to a wider channel as
255. -/
theorem not_decides_on_negative_byte :
    (¬ ∀ (channelIn channelOut : Channel) (rule : Rule),
      channelIn.array.type.isInteger = true → Verified rule channelIn channelOut →
      RuleType.isRelation rule.type = true →
      (matched rule.type (inValue channelIn rule) rule.triggerValue = true ↔
        RuleType.Relates rule.type (channelIn.valueAt rule.triggerIdx)
          rule.triggerValue.n)) ∧
    (¬ ∀ (channelIn channelOut : Channel) (rule : Rule) (w : Channel.Written),
      channelIn.array.type.isInteger = true → channelOut.array.type.isInteger = true →
      Verified rule channelIn channelOut → rule.writeSameValue = true →
      channelOut.array.type.Holds (channelIn.valueAt rule.triggerIdx) →
      ruleMatch channelOut rule (inValue channelIn rule).data 0 = some w →
      w.channel.valueAt rule.writeIdx = channelIn.valueAt rule.triggerIdx) := by
  have hverified : Verified positiveRule (byteChannel 255) (Channel.create .short 1) :=
    ⟨by decide, by decide⟩
  refine ⟨?_, ?_⟩
  · intro hall
    have hiff := hall (byteChannel 255) _ positiveRule (by decide) hverified (by decide)
    have hless : (0 : Int) < (byteChannel 255).valueAt 0 := hiff.mp (by decide)
    exact absurd hless (by decide)
  · intro hall
    obtain ⟨w, hw, hvalue⟩ := @ruleMatch_valueAt (Channel.create .short 1) positiveRule
      (inValue (byteChannel 255) positiveRule).data 0 rfl (by decide) (by decide)
    have hsame := hall (byteChannel 255) (Channel.create .short 1) positiveRule w
      (by decide) (by decide) hverified rfl (by decide) hw
    rw [hvalue] at hsame
    exact absurd hsame (by decide)

end DevFilter

end Sihd.Core
