import Sihd.Core.Channel
import Sihd.Lib.OrderedMap
import Sihd.Lib.Transition
import Sihd.Util.Splitter.Plain
import Mathlib.Data.Finset.Sort

/-!
# The sampler

A sampler copies channels to other channels, on the clock of a worker. A channel
that tells of a write is put into a set; a run takes the set under its lock and then
copies its channels one by one, while others are written and tell of it.

The outs are given by their ins in the configuration, and looked up by their ins in
a run.
-/

namespace Sihd.Core

open Util

namespace DevSampler

variable {Chan : Type*}

/-- The out and the in of an entry whose channels are both found. -/
def pairOf (findChannel : List UInt8 → Option Chan) (e : List UInt8 × List UInt8) :
    Option (Chan × Chan) :=
  match findChannel e.2, findChannel e.1 with
  | some channelIn, some channelOut => some (channelOut, channelIn)
  | _, _ => none

/-- The configuration of a sampler, an in by its out, and the channels of the
paths. It is a map: two of its paths do not lead to one out. -/
structure Configuration (Chan : Type*) where
  confMap : OrderedMap (List UInt8) (List UInt8)
  findChannel : List UInt8 → Option Chan
  distinct : ((confMap.entries.filterMap (pairOf findChannel)).map Prod.fst).Nodup

/-- The pairs that `on_start` goes through. -/
def Configuration.pairs (conf : Configuration Chan) : List (Chan × Chan) :=
  conf.confMap.entries.filterMap (pairOf conf.findChannel)

/-- The outs by their ins, the later pairs over the earlier ones. -/
def invert [DecidableEq Chan] (pairs : List (Chan × Chan)) : Chan → Option Chan :=
  pairs.foldl (fun m p => Function.update m p.2 (some p.1)) fun _ => none

/-- Whether `on_start` found all channels, and the map it makes. -/
def onStart [DecidableEq Chan] (conf : Configuration Chan) : Bool × (Chan → Option Chan) :=
  (conf.confMap.entries.all fun e => (pairOf conf.findChannel e).isSome, invert conf.pairs)

/-- Where a run of the sampler is: between two runs, before the next of its
channels, with a copy of the bytes of one, or telling of the write of an out. -/
inductive Stage (Chan : Type*) where
  | idle
  | copying (rest : List Chan)
  | writing (channelIn : Chan) (copy : List UInt8) (rest : List Chan)
  | notifying (channelOut : Chan) (rest : List Chan)

/-- The channels that a run has still to copy. -/
def Stage.rest : Stage Chan → List Chan
  | .idle => []
  | .copying rest => rest
  | .writing _ _ rest => rest
  | .notifying _ rest => rest

/-- A sampler and the channels. What a channel held since the start, and since its
last notification if there was one, is kept beside it, the latest first. -/
structure World (Chan : Type*) where
  channels : Chan → Channel
  channelsMap : Chan → Option Chan
  channelsSampleSet : Finset Chan
  stage : Stage Chan
  past : Chan → List (List UInt8)
  held : Chan → Option (List (List UInt8))

/-- The steps of the writers of channels and of the worker. A write that is told of
has two, and so has the copy of a channel. -/
inductive Action (Chan : Type*) where
  | write (channel : Chan) (now : Int) (bytes : List UInt8) (byteOffset : Nat)
  | notify (channel : Chan)
  | run
  | runRead
  | runWrite (now : Int)
  | runNotify
  | runEnd

namespace World

def content (w : World Chan) (c : Chan) : List UInt8 := (w.channels c).array.bytes

variable [LinearOrder Chan]

/-- The channel after a write, whose observers are told next. -/
def store (w : World Chan) (c : Chan) (r : Channel.Written) : World Chan :=
  { w with
    channels := Function.update w.channels c { r.channel with notifying := r.notified }
    past := Function.update w.past c (r.channel.array.bytes :: w.past c)
    held := Function.update w.held c ((w.held c).map (r.channel.array.bytes :: ·)) }

/-- `DevSampler::handle`, at the end of which the channel can be written again. -/
def handle (w : World Chan) (c : Chan) : World Chan :=
  { w with
    channels := Function.update w.channels c { w.channels c with notifying := false }
    channelsSampleSet :=
      if (w.channelsMap c).isSome then insert c w.channelsSampleSet else w.channelsSampleSet
    held := Function.update w.held c (some [w.content c]) }

/-- The channels of a set are copied in the order of their addresses. -/
def step (w : World Chan) : Action Chan → Option (World Chan)
  | .write c now bytes byteOffset =>
      if (w.channels c).notifying then some w
      else ((w.channels c).write now bytes byteOffset).map (w.store c)
  | .notify c =>
      match w.stage with
      | .notifying c' _ =>
          if c = c' ∨ (w.channels c).notifying = false then none else some (w.handle c)
      | _ => if (w.channels c).notifying then some (w.handle c) else none
  | .run =>
      match w.stage with
      | .idle => some { w with
          channelsSampleSet := ∅
          stage := .copying (w.channelsSampleSet.sort (· ≤ ·)) }
      | _ => none
  | .runRead =>
      match w.stage with
      | .copying (c :: rest) => some { w with stage := .writing c (w.content c) rest }
      | _ => none
  | .runWrite now =>
      match w.stage with
      | .writing c copy rest =>
          (w.channelsMap c).bind fun channelOut =>
            if (w.channels channelOut).notifying then some { w with stage := .copying rest }
            else ((w.channels channelOut).write now copy 0).map fun r =>
              { w.store channelOut r with
                stage := if r.notified then .notifying channelOut rest else .copying rest }
      | _ => none
  | .runNotify =>
      match w.stage with
      | .notifying c rest => some { w.handle c with stage := .copying rest }
      | _ => none
  | .runEnd =>
      match w.stage with
      | .copying [] => some { w with stage := .idle }
      | _ => none

/-- A started sampler, before its first run. -/
structure IsStarted (conf : Configuration Chan) (w : World Chan) : Prop where
  channelsMap : w.channelsMap = (onStart conf).2
  channelsSampleSet : w.channelsSampleSet = ∅
  stage : w.stage = .idle
  notifying : ∀ c, (w.channels c).notifying = false
  past : ∀ c, w.past c = [w.content c]
  held : ∀ c, w.held c = none

/-- The channel begins with the bytes. -/
def Holds (c : Channel) (bytes : List UInt8) : Prop :=
  c.array.bytes.take bytes.length = bytes

/-- Between two runs, the in of a pair that told of a write is in the set, or the out
holds what it held since; and a run writes to an out what its in held. -/
structure LosesNoUpdate (conf : Configuration Chan) (w : World Chan) : Prop where
  sampled : w.stage = .idle → ∀ p ∈ conf.pairs, ∀ hs, w.held p.2 = some hs →
    p.2 ∈ w.channelsSampleSet ∨ ∃ bytes ∈ hs, Holds (w.channels p.1) bytes
  own : ∀ c copy rest, w.stage = .writing c copy rest → ∃ channelOut,
    w.channelsMap c = some channelOut ∧ (channelOut, c) ∈ conf.pairs ∧ copy ∈ w.past c

/-- The write to an out, if one is next, succeeds. -/
def RunWrites (w : World Chan) (now : Int) : Prop :=
  ∀ c copy rest channelOut, w.stage = .writing c copy rest →
    w.channelsMap c = some channelOut →
      ∃ r, (w.channels channelOut).write now copy 0 = some r ∧ r.ret = true

/-- The writers write to the ins, and the worker's writes succeed. -/
def WritesIns (conf : Configuration Chan) (w : World Chan) : Action Chan → Prop
  | .write c _ _ _ => ∃ p ∈ conf.pairs, p.2 = c
  | .runWrite now => w.RunWrites now
  | _ => True

/-- The same, and no writer writes to the out of another channel. -/
def WritesOnlyIns (conf : Configuration Chan) (w : World Chan) : Action Chan → Prop
  | .write c _ _ _ => ∀ p ∈ conf.pairs, p.1 ≠ p.2 → p.1 ≠ c
  | .runWrite now => w.RunWrites now
  | _ => True

end World

section Invert

variable [DecidableEq Chan] {pairs : List (Chan × Chan)} {i o : Chan}

/-- The out of an in is that of the last pair with the in. -/
theorem invert_eq (pairs : List (Chan × Chan)) (i : Chan) :
    invert pairs i = ((pairs.filter fun p => p.2 = i).getLast?).map Prod.fst := by
  induction pairs using List.reverseRecOn with
  | nil => rfl
  | append_singleton pairs p ih =>
    rw [invert, List.foldl_append, List.filter_append, List.foldl_cons, List.foldl_nil,
      List.filter_singleton]
    by_cases hp : p.2 = i
    · simp [hp]
    · rw [Function.update_of_ne (Ne.symm hp)]
      rw [invert] at ih
      simpa [hp] using ih

theorem mem_of_invert (h : invert pairs i = some o) : (o, i) ∈ pairs := by
  rw [invert_eq, Option.map_eq_some_iff] at h
  obtain ⟨p, hp, rfl⟩ := h
  obtain ⟨hmem, hi⟩ := List.mem_filter.mp (List.mem_of_getLast? hp)
  rw [← of_decide_eq_true hi]
  exact hmem

theorem invert_isSome {p : Chan × Chan} (hp : p ∈ pairs) : (invert pairs p.2).isSome = true := by
  have hne : (pairs.filter fun q => q.2 = p.2) ≠ [] :=
    List.ne_nil_of_mem (List.mem_filter.mpr ⟨hp, decide_eq_true rfl⟩)
  rw [invert_eq, Option.isSome_map, List.getLast?_eq_some_getLast hne]
  rfl

/-- A pair whose in no later pair names is found by its in. -/
theorem invert_of_pairwise (h : pairs.Pairwise fun p q => p.1 ≠ p.2 → p.2 ≠ q.2)
    {p : Chan × Chan} (hp : p ∈ pairs) (hne : p.1 ≠ p.2) : invert pairs p.2 = some p.1 := by
  obtain ⟨l, l', rfl⟩ := List.append_of_mem hp
  have hlater : ∀ q ∈ l', ¬ q.2 = p.2 := fun q hq heq =>
    (List.pairwise_cons.mp (List.pairwise_append.mp h).2.1).1 q hq hne heq.symm
  have hnil : (l'.filter fun q => q.2 = p.2) = [] :=
    List.filter_eq_nil_iff.mpr fun q hq => by simpa using hlater q hq
  rw [invert_eq, List.filter_append, List.filter_cons, if_pos (decide_eq_true rfl), hnil,
    List.getLast?_append]
  rfl

/-- The pairs that are found by their ins are the last ones to name them. -/
theorem pairwise_of_invert (hnodup : (pairs.map Prod.fst).Nodup)
    (h : ∀ p ∈ pairs, p.1 ≠ p.2 → invert pairs p.2 = some p.1) :
    pairs.Pairwise fun p q => p.1 ≠ p.2 → p.2 ≠ q.2 := by
  induction pairs with
  | nil => exact .nil
  | cons p pairs ih =>
    obtain ⟨hp, hnodup⟩ := List.nodup_cons.mp hnodup
    have htail : ∀ q ∈ pairs, invert (p :: pairs) q.2 = invert pairs q.2 := fun q hq => by
      have hne : (pairs.filter fun r => r.2 = q.2) ≠ [] :=
        List.ne_nil_of_mem (List.mem_filter.mpr ⟨hq, decide_eq_true rfl⟩)
      rw [invert_eq, invert_eq, List.filter_cons]
      split
      · obtain ⟨r, l, hl⟩ := List.exists_cons_of_ne_nil hne
        rw [hl, List.getLast?_cons_cons]
      · rfl
    refine List.pairwise_cons.mpr ⟨fun q hq hne heq => ?_, ih hnodup fun q hq hne => ?_⟩
    · have hfound := h p List.mem_cons_self hne
      rw [heq, htail q hq] at hfound
      exact hp (List.mem_map.mpr ⟨_, mem_of_invert hfound, rfl⟩)
    · rw [← htail q hq]
      exact h q (List.mem_cons_of_mem _ hq) hne

end Invert

theorem holds_nil (c : Channel) : World.Holds c [] := List.take_zero

theorem holds_of_copy {c : Channel} (now : Int) {bytes : List UInt8}
    (h : bytes.length ≤ c.array.byteSize) : World.Holds (c.copy now bytes 0).channel bytes := by
  rcases List.eq_nil_or_concat bytes with rfl | ⟨l, b, rfl⟩
  · exact holds_nil _
  · have hpos : 0 < c.array.byteSize :=
      Nat.lt_of_lt_of_le (by simp) h
    have hroom : 0 + (l.concat b).length ≤ c.array.byteSize := by omega
    rw [Channel.copy_inside now hpos hroom, World.Holds]
    split
    · rename_i hsame
      have hwindow := Channel.window_bytes hroom
      rw [List.drop_zero] at hwindow
      exact hwindow.trans hsame.2
    · have hread := overwrite_read (l := c.array.bytes) (b := l.concat b) (i := 0)
        (by rw [IArray.bytes_length]; exact hroom)
      rw [List.drop_zero] at hread
      dsimp only
      rwa [Channel.overwritten_bytes now hroom]

/-- A write from the start that succeeds leaves a channel that begins with the
bytes. -/
theorem holds_of_write {c : Channel} {now : Int} {bytes : List UInt8} {r : Channel.Written}
    (hbytes : bytes.length < 2 ^ 63) (h : c.write now bytes 0 = some r) (hret : r.ret = true) :
    World.Holds r.channel bytes := by
  have hneeded : (bytes.length + 0) % 2 ^ 64 = bytes.length := by omega
  simp only [Channel.write, hneeded] at h
  split at h
  · cases h
    cases hret
  · split at h
    · rename_i hle
      cases h
      exact holds_of_copy now hle
    · split at h
      · cases h
        cases hret
      · rename_i hcapacity
        split at h
        · cases h
        · rename_i haligned
          cases h
          have hle : bytes.length ≤ c.array.byteCapacity := by omega
          refine holds_of_copy now ?_
          rw [Channel.byteResize_byteSize hle (by omega)]

namespace World

variable [LinearOrder Chan] {conf : Configuration Chan} {w w' : World Chan}

/-- A channel that told of a write is in the set, is to be copied, or is copied with
what it held since. -/
def Awaits (w : World Chan) (c : Chan) (hs : List (List UInt8)) : Prop :=
  c ∈ w.channelsSampleSet ∨ c ∈ w.stage.rest ∨
    ∃ copy rest, w.stage = .writing c copy rest ∧ copy ∈ hs

/-- What holds of a sampler in all its stages. -/
structure Sound (conf : Configuration Chan) (w : World Chan) : Prop where
  channelsMap : w.channelsMap = invert conf.pairs
  past : ∀ c, w.content c ∈ w.past c
  held : ∀ c hs, w.held c = some hs → w.content c ∈ hs
  inset : ∀ c ∈ w.channelsSampleSet, (w.channelsMap c).isSome = true
  inrest : ∀ c ∈ w.stage.rest, (w.channelsMap c).isSome = true
  copied : ∀ c copy rest, w.stage = .writing c copy rest →
    (w.channelsMap c).isSome = true ∧ copy ∈ w.past c ∧ copy.length < 2 ^ 63
  recent : ∀ c copy rest, w.stage = .writing c copy rest → ∀ hs, w.held c = some hs →
    c ∈ w.channelsSampleSet ∨ copy ∈ hs
  sampled : ∀ p ∈ conf.pairs, p.1 ≠ p.2 → ∀ hs, w.held p.2 = some hs →
    w.Awaits p.2 hs ∨ ∃ bytes ∈ hs, Holds (w.channels p.1) bytes

theorem Sound.losesNoUpdate (h : Sound conf w) : LosesNoUpdate conf w where
  sampled hidle p hp hs hheld := by
    have hbytes : (w.content p.2).take (w.content p.2).length = w.content p.2 :=
      List.take_length
    by_cases hne : p.1 = p.2
    · exact .inr ⟨w.content p.2, h.held _ _ hheld, hne ▸ hbytes⟩
    · obtain (hset | hrest | ⟨copy, rest, hwriting, -⟩) | hholds := h.sampled p hp hne hs hheld
      · exact .inl hset
      · rw [hidle] at hrest
        cases hrest
      · rw [hidle] at hwriting
        cases hwriting
      · exact .inr hholds
  own c copy rest hwriting := by
    obtain ⟨hsome, hpast, -⟩ := h.copied c copy rest hwriting
    obtain ⟨channelOut, hout⟩ := Option.isSome_iff_exists.mp hsome
    exact ⟨channelOut, hout, mem_of_invert (h.channelsMap ▸ hout), hpast⟩

theorem IsStarted.sound (h : w.IsStarted conf) : Sound conf w where
  channelsMap := h.channelsMap
  past c := by
    rw [h.past]
    exact List.mem_singleton_self _
  held c hs hheld := by
    rw [h.held] at hheld
    cases hheld
  inset c hc := by
    rw [h.channelsSampleSet] at hc
    exact absurd hc (Finset.notMem_empty c)
  inrest c hc := by
    rw [h.stage] at hc
    cases hc
  copied c copy rest hwriting := by
    rw [h.stage] at hwriting
    cases hwriting
  recent c copy rest hwriting := by
    rw [h.stage] at hwriting
    cases hwriting
  sampled p _ _ hs hheld := by
    rw [h.held] at hheld
    cases hheld

theorem content_store (w : World Chan) (c : Chan) (r : Channel.Written) (c' : Chan) :
    (w.store c r).content c' = if c' = c then r.channel.array.bytes else w.content c' := by
  by_cases hc : c' = c
  · rw [if_pos hc, hc, content, store]
    simp only [Function.update_self]
  · rw [if_neg hc, content, store]
    simp only [Function.update_of_ne hc]
    rfl

theorem content_handle (w : World Chan) (c c' : Chan) : (w.handle c).content c' = w.content c' := by
  by_cases hc : c' = c
  · rw [hc, content, handle]
    simp only [Function.update_self]
    rfl
  · rw [content, handle]
    simp only [Function.update_of_ne hc]
    rfl

theorem past_subset_store (w : World Chan) (c : Chan) (r : Channel.Written) (c' : Chan) :
    w.past c' ⊆ (w.store c r).past c' := by
  intro bytes hbytes
  by_cases hc : c' = c
  · subst hc
    simp only [store, Function.update_self]
    exact List.mem_cons_of_mem _ hbytes
  · simpa only [store, Function.update_of_ne hc] using hbytes

theorem held_of_store {c c' : Chan} {r : Channel.Written} {hs : List (List UInt8)}
    (h : (w.store c r).held c' = some hs) :
    ∃ hs', w.held c' = some hs' ∧ hs' ⊆ hs ∧ (c' = c → r.channel.array.bytes ∈ hs) := by
  by_cases hc : c' = c
  · subst hc
    simp only [store, Function.update_self, Option.map_eq_some_iff] at h
    obtain ⟨hs', hheld, rfl⟩ := h
    exact ⟨hs', hheld, List.subset_cons_self _ _, fun _ => List.mem_cons_self⟩
  · simp only [store, Function.update_of_ne hc] at h
    exact ⟨hs, h, List.Subset.refl _, fun heq => absurd heq hc⟩

/-- The channels keep what they hold when one of them is written. -/
theorem Sound.past_store (h : Sound conf w) (c : Chan) (r : Channel.Written) (c' : Chan) :
    (w.store c r).content c' ∈ (w.store c r).past c' := by
  rw [content_store]
  split
  · rename_i hc
    subst hc
    simp only [store, Function.update_self]
    exact List.mem_cons_self
  · exact past_subset_store w c r c' (h.past c')

theorem Sound.held_store (h : Sound conf w) {c c' : Chan} {r : Channel.Written}
    {hs : List (List UInt8)} (hheld : (w.store c r).held c' = some hs) :
    (w.store c r).content c' ∈ hs := by
  obtain ⟨hs', hheld', hsub, hmem⟩ := held_of_store hheld
  rw [content_store]
  split
  · rename_i hc
    exact hmem hc
  · exact hsub (h.held c' hs' hheld')

/-- A write to a channel that is not the out of another keeps the sampler sound. -/
theorem Sound.store (h : Sound conf w) {c : Chan} (hc : ∀ p ∈ conf.pairs, p.1 ≠ p.2 → p.1 ≠ c)
    (r : Channel.Written) : Sound conf (w.store c r) where
  channelsMap := h.channelsMap
  past := h.past_store c r
  held _ _ := h.held_store
  inset := h.inset
  inrest := h.inrest
  copied c' copy rest hwriting := by
    obtain ⟨hsome, hpast, hlength⟩ := h.copied c' copy rest hwriting
    exact ⟨hsome, past_subset_store w c r c' hpast, hlength⟩
  recent c' copy rest hwriting hs hheld := by
    obtain ⟨hs', hheld', hsub, -⟩ := held_of_store hheld
    exact (h.recent c' copy rest hwriting hs' hheld').imp_right (hsub ·)
  sampled p hp hne hs hheld := by
    obtain ⟨hs', hheld', hsub, -⟩ := held_of_store hheld
    have hchannel : (w.store c r).channels p.1 = w.channels p.1 :=
      Function.update_of_ne (hc p hp hne) _ _
    rw [hchannel]
    obtain (hset | hrest | ⟨copy, rest, hwriting, hcopy⟩) | ⟨bytes, hbytes, hholds⟩ :=
      h.sampled p hp hne hs' hheld'
    · exact .inl (.inl hset)
    · exact .inl (.inr (.inl hrest))
    · exact .inl (.inr (.inr ⟨copy, rest, hwriting, hsub hcopy⟩))
    · exact .inr ⟨bytes, hsub hbytes, hholds⟩

theorem mem_handle {c : Chan} (h : (w.channelsMap c).isSome = true) :
    c ∈ (w.handle c).channelsSampleSet := by
  rw [World.handle, if_pos h]
  exact Finset.mem_insert_self _ _

theorem subset_handle (w : World Chan) (c : Chan) :
    w.channelsSampleSet ⊆ (w.handle c).channelsSampleSet := by
  simp only [World.handle]
  split
  · exact Finset.subset_insert _ _
  · exact Finset.Subset.refl _

/-- The notification of a channel, after which a run goes on where it was. -/
theorem Sound.handle (h : Sound conf w) (c : Chan) {stage : Stage Chan}
    (hrest : stage.rest = w.stage.rest)
    (hwriting : ∀ c copy rest, stage = .writing c copy rest ↔ w.stage = .writing c copy rest) :
    Sound conf { w.handle c with stage := stage } where
  channelsMap := h.channelsMap
  past c' := by
    change (w.handle c).content c' ∈ w.past c'
    rw [content_handle]
    exact h.past c'
  held c' hs hheld := by
    change (w.handle c).content c' ∈ hs
    rw [content_handle]
    by_cases hc : c' = c
    · subst hc
      simp only [World.handle, Function.update_self, Option.some.injEq] at hheld
      rw [← hheld]
      exact List.mem_singleton_self _
    · simp only [World.handle, Function.update_of_ne hc] at hheld
      exact h.held c' hs hheld
  inset c' hc' := by
    simp only [World.handle] at hc'
    split at hc'
    · rename_i hsome
      rcases Finset.mem_insert.mp hc' with rfl | hc'
      · exact hsome
      · exact h.inset c' hc'
    · exact h.inset c' hc'
  inrest c' hc' := h.inrest c' (hrest ▸ hc')
  copied c' copy rest hstage := h.copied c' copy rest ((hwriting c' copy rest).mp hstage)
  recent c' copy rest hstage hs hheld := by
    have hstage := (hwriting c' copy rest).mp hstage
    by_cases hc : c' = c
    · exact .inl (hc ▸ mem_handle (hc ▸ (h.copied c' copy rest hstage).1))
    · simp only [World.handle, Function.update_of_ne hc] at hheld
      exact (h.recent c' copy rest hstage hs hheld).imp_left (subset_handle w c ·)
  sampled p hp hne hs hheld := by
    by_cases hc : p.2 = c
    · have hsome : (w.channelsMap c).isSome = true := by
        rw [h.channelsMap, ← hc]
        exact invert_isSome hp
      exact .inl (.inl (by
        rw [hc]
        exact mem_handle hsome))
    · simp only [World.handle, Function.update_of_ne hc] at hheld
      have hset := subset_handle w c
      obtain (hmem | hmem | ⟨copy, rest, hstage, hcopy⟩) | ⟨bytes, hbytes, hholds⟩ :=
        h.sampled p hp hne hs hheld
      · exact .inl (.inl (hset hmem))
      · exact .inl (.inr (.inl (hrest ▸ hmem)))
      · exact .inl (.inr (.inr ⟨copy, rest, (hwriting _ _ _).mpr hstage, hcopy⟩))
      · refine .inr ⟨bytes, hbytes, ?_⟩
        have hcontent := content_handle w c p.1
        rw [content] at hcontent
        rw [Holds, hcontent]
        exact hholds

/-- A run takes the set. -/
theorem Sound.run (h : Sound conf w) (hidle : w.stage = .idle) :
    Sound conf { w with
      channelsSampleSet := ∅
      stage := .copying (w.channelsSampleSet.sort (· ≤ ·)) } where
  channelsMap := h.channelsMap
  past := h.past
  held := h.held
  inset c hc := absurd hc (Finset.notMem_empty c)
  inrest c hc := h.inset c ((Finset.mem_sort _).mp hc)
  copied c copy rest hstage := by cases hstage
  recent c copy rest hstage := by cases hstage
  sampled p hp hne hs hheld := by
    obtain (hset | hrest | ⟨copy, rest, hstage, -⟩) | hholds := h.sampled p hp hne hs hheld
    · exact .inl (.inr (.inl ((Finset.mem_sort _).mpr hset)))
    · rw [hidle] at hrest
      cases hrest
    · rw [hidle] at hstage
      cases hstage
    · exact .inr hholds

/-- A run copies the bytes of its next channel. -/
theorem Sound.runRead (h : Sound conf w) {c : Chan} {rest : List Chan}
    (hstage : w.stage = .copying (c :: rest)) :
    Sound conf { w with stage := .writing c (w.content c) rest } where
  channelsMap := h.channelsMap
  past := h.past
  held := h.held
  inset := h.inset
  inrest c' hc' := h.inrest c' (by
    rw [hstage]
    exact List.mem_cons_of_mem _ hc')
  copied c' copy rest' hwriting := by
    cases hwriting
    refine ⟨h.inrest c (by rw [hstage]; exact List.mem_cons_self), h.past c, ?_⟩
    rw [content, IArray.bytes_length]
    exact ((w.channels c).byteSize_le).trans_lt (w.channels c).addressable
  recent c' copy rest' hwriting hs hheld := by
    cases hwriting
    exact .inr (h.held c hs hheld)
  sampled p hp hne hs hheld := by
    obtain (hset | hrest | ⟨copy, rest', hwriting, -⟩) | hholds := h.sampled p hp hne hs hheld
    · exact .inl (.inl hset)
    · rw [hstage] at hrest
      rcases List.mem_cons.mp hrest with hc | hrest
      · exact .inl (.inr (.inr ⟨w.content p.2, rest, by rw [hc], h.held _ _ hheld⟩))
      · exact .inl (.inr (.inl hrest))
    · rw [hstage] at hwriting
      cases hwriting
    · exact .inr hholds

/-- A run writes its copy to the out of its channel. -/
theorem Sound.runWrite (h : Sound conf w) {c channelOut : Chan} {copy : List UInt8}
    {rest : List Chan} (hlast : conf.pairs.Pairwise fun p q => p.1 ≠ p.2 → p.2 ≠ q.2)
    (hstage : w.stage = .writing c copy rest) (hout : w.channelsMap c = some channelOut)
    {now : Int} {r : Channel.Written}
    (hwrite : (w.channels channelOut).write now copy 0 = some r) (hret : r.ret = true)
    {stage : Stage Chan} (hrest : stage.rest = rest)
    (hwriting : ∀ c copy rest, stage ≠ .writing c copy rest) :
    Sound conf { w.store channelOut r with stage := stage } where
  channelsMap := h.channelsMap
  past := h.past_store channelOut r
  held _ _ := h.held_store
  inset := h.inset
  inrest c' hc' := h.inrest c' (by
    rw [hstage]
    exact hrest ▸ hc')
  copied c' copy' rest' hwriting' := absurd hwriting' (hwriting c' copy' rest')
  recent c' copy' rest' hwriting' := absurd hwriting' (hwriting c' copy' rest')
  sampled p hp hne hs hheld := by
    obtain ⟨hs', hheld', hsub, -⟩ := held_of_store hheld
    have hpair : (channelOut, c) ∈ conf.pairs := mem_of_invert (h.channelsMap ▸ hout)
    by_cases hc : p.1 = channelOut
    · -- The outs are distinct, so the channel that is copied is the in of the pair.
      have heq : p = (channelOut, c) := List.inj_on_of_nodup_map conf.distinct hp hpair hc
      have hholds : Holds r.channel copy :=
        holds_of_write (h.copied c copy rest hstage).2.2 hwrite hret
      obtain hset | hcopy := h.recent c copy rest hstage hs' (by rw [← hheld', heq])
      · exact .inl (.inl (by rw [heq]; exact hset))
      · refine .inr ⟨copy, hsub hcopy, ?_⟩
        simp only [World.store, hc, Function.update_self]
        exact hholds
    · have hchannel : (w.store channelOut r).channels p.1 = w.channels p.1 :=
        Function.update_of_ne hc _ _
      obtain (hset | hmem | ⟨copy', rest', hstage', -⟩) | ⟨bytes, hbytes, hholds⟩ :=
        h.sampled p hp hne hs' hheld'
      · exact .inl (.inl hset)
      · rw [hstage] at hmem
        exact .inl (.inr (.inl (hrest ▸ hmem)))
      · rw [hstage, Stage.writing.injEq] at hstage'
        -- The out of the channel that is copied is found by it.
        have hfound := invert_of_pairwise hlast hp hne
        rw [← hstage'.1, ← h.channelsMap, hout, Option.some.injEq] at hfound
        exact absurd hfound.symm hc
      · exact .inr ⟨bytes, hsub hbytes, by rw [hchannel]; exact hholds⟩

/-- A step keeps the sampler sound when no writer writes to the out of another
channel and each pair is found by its in. -/
theorem Sound.step (h : Sound conf w) {a : Action Chan}
    (hlast : conf.pairs.Pairwise fun p q => p.1 ≠ p.2 → p.2 ≠ q.2)
    (hallowed : WritesOnlyIns conf w a) (hstep : w.step a = some w') : Sound conf w' := by
  cases a with
  | write c now bytes byteOffset =>
    rw [World.step] at hstep
    split at hstep
    · cases hstep
      exact h
    · obtain ⟨r, -, rfl⟩ := Option.map_eq_some_iff.mp hstep
      exact h.store hallowed r
  | notify c =>
    have hhandle : Sound conf (w.handle c) := h.handle c rfl fun _ _ _ => Iff.rfl
    rw [World.step] at hstep
    split at hstep
    · split at hstep
      · cases hstep
      · exact Option.some.inj hstep ▸ hhandle
    · split at hstep
      · exact Option.some.inj hstep ▸ hhandle
      · cases hstep
  | run =>
    rw [World.step] at hstep
    split at hstep
    · rename_i hidle
      cases hstep
      exact h.run hidle
    · cases hstep
  | runRead =>
    rw [World.step] at hstep
    split at hstep
    · rename_i c rest hstage
      cases hstep
      exact h.runRead hstage
    · cases hstep
  | runWrite now =>
    rw [World.step] at hstep
    split at hstep
    · rename_i c copy rest hstage
      obtain ⟨channelOut, hout, hstep⟩ := Option.bind_eq_some_iff.mp hstep
      obtain ⟨r, hwrite, hret⟩ := hallowed c copy rest channelOut hstage hout
      have hfree : ¬ (w.channels channelOut).notifying = true := fun hbusy => by
        rw [Channel.write, if_pos hbusy] at hwrite
        cases hwrite
        cases hret
      rw [if_neg hfree, hwrite] at hstep
      cases hstep
      refine h.runWrite hlast hstage hout hwrite hret ?_ ?_
      · split <;> rfl
      · intro _ _ _
        split <;> simp
    · cases hstep
  | runNotify =>
    rw [World.step] at hstep
    split at hstep
    · rename_i c rest hstage
      cases hstep
      exact h.handle c (by rw [hstage]; rfl) fun _ _ _ => by simp [hstage]
    · cases hstep
  | runEnd =>
    rw [World.step] at hstep
    split at hstep
    · rename_i hstage
      cases hstep
      refine ⟨h.channelsMap, h.past, h.held, h.inset, fun _ hc => ?_, fun _ _ _ hstage' => ?_,
        fun _ _ _ hstage' => ?_, fun p hp hne hs hheld => ?_⟩
      · cases hc
      · cases hstage'
      · cases hstage'
      · obtain (hset | hrest | ⟨copy, rest, hwriting, -⟩) | hholds := h.sampled p hp hne hs hheld
        · exact .inl (.inl hset)
        · rw [hstage] at hrest
          cases hrest
        · rw [hstage] at hwriting
          cases hwriting
        · exact .inr hholds
    · cases hstep

/-- The law where the outs of other channels are left to the sampler. -/
theorem losesNoUpdate_of_writesOnlyIns
    (hlast : conf.pairs.Pairwise fun p q => p.1 ≠ p.2 → p.2 ≠ q.2)
    (h : Transition.Reaches step (WritesOnlyIns conf) (IsStarted conf) w) :
    LosesNoUpdate conf w :=
  (Transition.Reaches.invariant (I := Sound conf) (fun _ hstarted => IsStarted.sound hstarted)
    (fun _ _ _ hsound hallowed hstep => hsound.step hlast hallowed hstep) h).losesNoUpdate

/-- A started sampler over channels of one zero byte. -/
def zeros (conf : Configuration Chan) : World Chan :=
  ⟨fun _ => Channel.create .byte 1, (onStart conf).2, ∅, .idle, fun _ => [[0]], fun _ => none⟩

theorem isStarted_zeros (conf : Configuration Chan) : (zeros conf).IsStarted conf :=
  ⟨rfl, rfl, rfl, fun _ => rfl, fun _ => rfl, fun _ => rfl⟩

/-- The writes of one byte that the runs below make. -/
theorem exists_written : ∃ r : Channel.Written,
    (Channel.create .byte 1).write 0 [1] 0 = some r ∧ r.ret = true ∧ r.notified = true ∧
      r.channel.array.bytes = [1] ∧
      ({ r.channel with notifying := false } : Channel).write 0 [1] 0 =
        some ⟨true, false, { r.channel with notifying := false }⟩ ∧
      ∃ r' : Channel.Written,
        ({ r.channel with notifying := false } : Channel).write 0 [2] 0 = some r' ∧
          r'.channel.array.bytes = [2] :=
  ⟨_, rfl, rfl, rfl, rfl, rfl, _, rfl, rfl⟩

/-- The step that writes the copy to the out. -/
theorem step_runWrite {i o : Chan} (hmap : invert conf.pairs i = some o) (hw : w.channelsMap = invert conf.pairs)
    (hstage : w.stage = .writing i [1] []) {c : Channel} (hc : w.channels o = c)
    (hfree : c.notifying = false) {r' : Channel.Written} (hwrite' : c.write 0 [1] 0 = some r') :
    w.step (.runWrite 0) = some { w.store o r' with
      stage := if r'.notified then .notifying o [] else .copying [] } := by
  rw [step, hstage]
  dsimp only
  rw [hw, hmap, Option.bind_some, hc, hfree, if_neg Bool.false_ne_true, hwrite']
  rfl

theorem runWrites {i o : Chan} (hmap : invert conf.pairs i = some o) (hw : w.channelsMap = invert conf.pairs)
    (hstage : w.stage = .writing i [1] []) {c : Channel} (hc : w.channels o = c)
    {r' : Channel.Written} (hwrite' : c.write 0 [1] 0 = some r') (hret' : r'.ret = true) :
    w.RunWrites 0 := by
  intro c' copy rest channelOut hstage' hmap'
  rw [hstage, Stage.writing.injEq] at hstage'
  obtain ⟨rfl, rfl, rfl⟩ := hstage'
  rw [hw, hmap, Option.some.injEq] at hmap'
  subst hmap'
  exact ⟨r', hc ▸ hwrite', hret'⟩

section Sampled

variable {i o : Chan} (hpair : ∃ p ∈ conf.pairs, p.2 = i) (hmap : invert conf.pairs i = some o)
  {r : Channel.Written} (hwrite : (Channel.create .byte 1).write 0 [1] 0 = some r)
  (hret : r.ret = true) (hnotified : r.notified = true) (hbytes : r.channel.array.bytes = [1])

include hpair hmap hwrite hnotified hbytes

/-- An in that was written once, told of it and was read by a run. -/
theorem reaches_read : ∃ w, Transition.Reaches step (WritesIns conf) (IsStarted conf) w ∧
    w.channelsMap = invert conf.pairs ∧ w.channelsSampleSet = ∅ ∧ w.stage = .writing i [1] [] ∧
      w.held i = some [[1]] ∧
      w.channels i = { r.channel with notifying := false } ∧
      ∀ c, c ≠ i → w.channels c = Channel.create .byte 1 := by
  have hwritten : Transition.Reaches step (WritesIns conf) (IsStarted conf)
      ((zeros conf).store i r) :=
    .next (a := Action.write i 0 [1] 0) (.start (isStarted_zeros conf)) hpair (by
      change ((Channel.create .byte 1).write 0 [1] 0).map _ = _
      rw [hwrite]
      rfl)
  have htold : Transition.Reaches step (WritesIns conf) (IsStarted conf)
      (((zeros conf).store i r).handle i) :=
    .next (a := Action.notify i) hwritten trivial (by
      change (if (((zeros conf).store i r).channels i).notifying then _ else _) = _
      simp [store, hnotified])
  have hset : (((zeros conf).store i r).handle i).channelsSampleSet = {i} := by
    have hsome : ((onStart conf).2 i).isSome = true := by
      change (invert conf.pairs i).isSome = true
      rw [hmap]
      rfl
    change (if ((onStart conf).2 i).isSome then insert i ∅ else ∅) = _
    rw [if_pos hsome]
    rfl
  have hrun : Transition.Reaches step (WritesIns conf) (IsStarted conf)
      { ((zeros conf).store i r).handle i with
        channelsSampleSet := ∅
        stage := .copying [i] } :=
    .next (a := Action.run) htold trivial (by
      change some _ = _
      rw [hset, Finset.sort_singleton])
  have hcontent : (((zeros conf).store i r).handle i).content i = [1] := by
    rw [content_handle, content_store, if_pos rfl, hbytes]
  refine ⟨_, .next (a := Action.runRead) hrun trivial (by
    change some _ = _
    rfl), rfl, rfl, ?_, ?_, ?_, fun c hc => ?_⟩
  · change Stage.writing i ((((zeros conf).store i r).handle i).content i) [] = _
    rw [hcontent]
  · have hstored : ((zeros conf).store i r).content i = [1] := by
      rw [content_store, if_pos rfl, hbytes]
    simp only [handle, Function.update_self, hstored]
  · simp [handle, store]
  · simp only [handle, store, Function.update_of_ne hc]
    rfl

include hret

/-- An in that was written once, told of it and was copied to its out, between two
runs. -/
theorem reaches_sampled (hagain : ({ r.channel with notifying := false } : Channel).write 0 [1] 0 =
      some ⟨true, false, { r.channel with notifying := false }⟩) :
    ∃ w, Transition.Reaches step (WritesIns conf) (IsStarted conf) w ∧
      w.stage = .idle ∧ (∀ c ∈ w.channelsSampleSet, c = o ∧ o ≠ i) ∧
        (∃ hs, w.held i = some hs ∧ ∀ bytes ∈ hs, bytes = [1]) ∧
        w.channels o = { r.channel with notifying := false } ∧
        ∀ c, c ≠ i → c ≠ o → w.channels c = Channel.create .byte 1 := by
  obtain ⟨w, hreach, hw, hset, hstage, hheld, hin, hothers⟩ :=
    reaches_read hpair hmap hwrite hnotified hbytes
  by_cases ho : o = i
  · subst ho
    have hstep := step_runWrite hmap hw hstage hin rfl hagain
    have hwritten := hreach.next (a := Action.runWrite 0) (runWrites hmap hw hstage hin hagain rfl) hstep
    refine ⟨_, hwritten.next (a := Action.runEnd) trivial rfl, rfl, fun c hc => ?_, ?_, ?_, ?_⟩
    · change c ∈ w.channelsSampleSet at hc
      rw [hset] at hc
      exact absurd hc (Finset.notMem_empty c)
    · refine ⟨[[1], [1]], ?_, by simp⟩
      simp [store, hheld, hbytes]
    · simp [store]
    · intro c hc _
      simp only [store, Function.update_of_ne hc]
      exact hothers c hc
  · have hout := hothers o ho
    have hstep := step_runWrite hmap hw hstage hout rfl hwrite
    have hwritten := hreach.next (a := Action.runWrite 0) (runWrites hmap hw hstage hout hwrite hret) hstep
    rw [hnotified, if_pos rfl] at hwritten
    have htold := hwritten.next (a := Action.runNotify) trivial rfl
    refine ⟨_, htold.next (a := Action.runEnd) trivial rfl, rfl, fun c hc => ?_, ?_, ?_, ?_⟩
    · refine ⟨?_, ho⟩
      simp only [handle, store, hset] at hc
      split at hc
      · simpa using hc
      · exact absurd hc (Finset.notMem_empty c)
    · refine ⟨[[1]], ?_, by simp⟩
      simp only [handle, store, Function.update_of_ne (Ne.symm ho)]
      exact hheld
    · simp [handle, store]
    · intro c hc hco
      simp only [handle, store, Function.update_of_ne hco]
      exact hothers c hc

end Sampled

/-- A channel that holds another byte does not hold what its in told. -/
theorem not_holds {c : Channel} {b : UInt8} (hc : c.array.bytes = [b]) (hb : b ≠ 1) :
    ¬ Holds c [1] := by
  rw [Holds, hc]
  simpa using hb

/-- Every pair whose law holds in all runs is found by its in. -/
theorem invert_of_losesNoUpdate
    (h : ∀ w, Transition.Reaches step (WritesIns conf) (IsStarted conf) w → LosesNoUpdate conf w)
    {p : Chan × Chan} (hp : p ∈ conf.pairs) (hne : p.1 ≠ p.2) :
    invert conf.pairs p.2 = some p.1 := by
  obtain ⟨o, hmap⟩ := Option.isSome_iff_exists.mp (invert_isSome hp)
  obtain ⟨r, hwrite, hret, hnotified, hbytes, hagain, -⟩ := exists_written
  obtain ⟨w, hreach, hidle, hset, ⟨hs, hheld, hones⟩, hout, hothers⟩ :=
    reaches_sampled ⟨p, hp, rfl⟩ hmap hwrite hret hnotified hbytes hagain
  by_contra hfound
  have hop : p.1 ≠ o := fun heq => hfound (heq ▸ hmap)
  obtain hmem | ⟨bytes, hmem, hholds⟩ := (h w hreach).sampled hidle p hp hs hheld
  · obtain ⟨hpo, hoi⟩ := hset _ hmem
    exact hoi hpo.symm
  · rw [hones bytes hmem, hothers p.1 hne hop] at hholds
    exact not_holds rfl (by decide) hholds

/-- No in is the out of another channel when the law holds in all runs. -/
theorem apart_of_losesNoUpdate
    (h : ∀ w, Transition.Reaches step (WritesIns conf) (IsStarted conf) w → LosesNoUpdate conf w)
    {p q : Chan × Chan} (hp : p ∈ conf.pairs) (hne : p.1 ≠ p.2) (hq : q ∈ conf.pairs) :
    p.1 ≠ q.2 := by
  intro heq
  have hmap := invert_of_losesNoUpdate h hp hne
  obtain ⟨r, hwrite, hret, hnotified, hbytes, hagain, r', hwrite', hbytes'⟩ := exists_written
  obtain ⟨w, hreach, hidle, hset, ⟨hs, hheld, hones⟩, hout, hothers⟩ :=
    reaches_sampled ⟨p, hp, rfl⟩ hmap hwrite hret hnotified hbytes hagain
  have hstep : w.step (.write p.1 0 [2] 0) = some (w.store p.1 r') := by
    rw [step, hout, if_neg (by simp), hwrite']
    rfl
  have hwritten := hreach.next (a := Action.write p.1 0 [2] 0) ⟨q, hq, heq.symm⟩ hstep
  have hheld' : (w.store p.1 r').held p.2 = some hs := by
    simp only [store, Function.update_of_ne (Ne.symm hne)]
    exact hheld
  obtain hmem | ⟨bytes, hmem, hholds⟩ := (h _ hwritten).sampled hidle p hp hs hheld'
  · exact hne (hset _ hmem).1.symm
  · rw [hones bytes hmem] at hholds
    refine not_holds (b := 2) ?_ (by decide) hholds
    simp only [store, Function.update_self]
    exact hbytes'

/-- A sampler loses no update in any run exactly when no pair names the in of an
earlier pair and no in is the out of another channel; a channel that is its own out
holds its own bytes anyway. -/
theorem losesNoUpdate_iff (conf : Configuration Chan) :
    (∀ w, Transition.Reaches step (WritesIns conf) (IsStarted conf) w → LosesNoUpdate conf w) ↔
      (conf.pairs.Pairwise fun p q => p.1 ≠ p.2 → p.2 ≠ q.2) ∧
        ∀ p ∈ conf.pairs, p.1 ≠ p.2 → ∀ q ∈ conf.pairs, p.1 ≠ q.2 := by
  constructor
  · intro h
    exact ⟨pairwise_of_invert conf.distinct fun p hp => invert_of_losesNoUpdate h hp,
      fun p hp hne q hq => apart_of_losesNoUpdate h hp hne hq⟩
  · rintro ⟨hlast, hapart⟩ w hreach
    refine losesNoUpdate_of_writesOnlyIns hlast (hreach.mono fun w a hallowed => ?_)
    cases a with
    | write c now bytes byteOffset =>
      obtain ⟨q, hq, rfl⟩ := hallowed
      exact fun p hp hne => hapart p hp hne q hq
    | runWrite now => exact hallowed
    | notify c => trivial
    | run => trivial
    | runRead => trivial
    | runNotify => trivial
    | runEnd => trivial

/-- The outs `b` and `c` of one in `a`. -/
def twoOuts : Configuration Nat where
  confMap := ⟨[([98], [97]), ([99], [97])], by decide⟩
  findChannel := fun path =>
    if path = [97] then some 0 else if path = [98] then some 1
    else if path = [99] then some 2 else none
  distinct := by decide

/-- Of two outs of an in only the later one is sampled. -/
theorem not_losesNoUpdate : ¬ ∀ (conf : Configuration Nat) (w : World Nat),
    Transition.Reaches step (WritesIns conf) (IsStarted conf) w → LosesNoUpdate conf w := by
  intro h
  have hfound := invert_of_losesNoUpdate (h twoOuts) (p := (1, 0)) (by decide) (by decide)
  revert hfound
  decide

end World

end DevSampler

end Sihd.Core
