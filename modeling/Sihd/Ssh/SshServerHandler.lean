import Sihd.Ssh.SshServer

/-!
# What the handler of the server keeps

A subsystem handler goes through its life once: it is started, it is given data, sizes and the end
of its channel while it runs, it is closed, and it is destroyed. A channel is created, used and
deleted. Each callback of the handler calls the subsystem handlers in their turn, and uses no
channel but those that it has a state for.
-/

namespace Sihd.Ssh

open Lifecycle UnorderedMap

variable {S C H : Type}

/-- A subsystem handler that failed to start, or is closed, waits to be destroyed. -/
inductive HandlerPhase where
  | absent
  | running
  | failed
  | closed
  deriving DecidableEq

def handlerLifecycle {S C H : Type} : Lifecycle (SshEvent S C H) H HandlerPhase where
  subject
    | .started h _ _ | .data h _ | .resized h _ | .forwarded h | .eof h | .closed h
    | .destroyed h => some h
    | _ => none
  init := .absent
  next
    | .absent, .started _ _ accepted => some (if accepted then .running else .failed)
    | .running, .data _ _ | .running, .resized _ _ | .running, .forwarded _ | .running, .eof _ =>
      some .running
    | .running, .closed _ => some .closed
    | .running, .destroyed _ | .failed, .destroyed _ | .closed, .destroyed _ => some .absent
    | _, _ => none

/-- A channel is there or not. -/
def channelLifecycle {S C H : Type} : Lifecycle (SshEvent S C H) C Bool where
  subject
    | .channelCreated c | .channelOpened _ c | .channelUsed c _ | .channelDeleted c => some c
    | _ => none
  init := false
  next
    | false, .channelCreated _ => some true
    | true, .channelOpened _ _ | true, .channelUsed _ _ => some true
    | true, .channelDeleted _ => some false
    | _, _ => none

/-! ## The handler -/

namespace BasicSshServerHandler

theorem mem_places_iff {s : S} {cs : List C} {k : S × C} :
    k ∈ cs.map (Prod.mk s) ↔ k.1 = s ∧ k.2 ∈ cs := by
  rw [List.mem_map]
  constructor
  · rintro ⟨c, hc, rfl⟩
    exact ⟨rfl, hc⟩
  · rintro ⟨rfl, hc⟩
    exact ⟨k.2, hc, rfl⟩

theorem nodup_places (s : S) {cs : List C} (h : cs.Nodup) : (cs.map (Prod.mk s)).Nodup :=
  h.map (Prod.mk_right_injective s)

section Takes

variable [DecidableEq H]

theorem takes_destroyed {p : HandlerPhase} (h : H) (hp : p ≠ .absent) :
    handlerLifecycle.Takes h [(SshEvent.destroyed h : SshEvent S C H)] p .absent := by
  refine .cons rfl ?_ .nil
  cases p with
  | absent => exact absurd rfl hp
  | running => rfl
  | failed => rfl
  | closed => rfl

/-- What a poll does with a channel. -/
theorem takes_pollChannel (managesChannelIo : H → Bool)
    (answers : PollAnswers C H) (c : C) (h : H) :
    handlerLifecycle.Takes h (pollChannel (S := S) managesChannelIo answers c h) .running
      (if answers.isRunning h then .running else .closed) := by
  rw [pollChannel]
  split
  · refine .skip rfl (.cons rfl rfl ?_)
    split
    · exact .cons rfl rfl .nil
    · exact .nil
  · refine .cons rfl rfl ?_
    split
    · exact .nil
    · split
      · exact .skip rfl (.skip rfl (.skip rfl .nil))
      · exact .skip rfl (.skip rfl .nil)

end Takes

variable [DecidableEq S] [DecidableEq C]
variable {b b' : BasicSshServerHandler S C H} {s : S} {c : C} {st : SessionState C H}
  {ch : ChannelState H} {cs : List C} {log : List (SshEvent S C H)} {k : S × C}
  {managesChannelIo : H → Bool} {answers : PollAnswers C H}

def stateAt (b : BasicSshServerHandler S C H) : S × C → Option (ChannelState H) :=
  b.sessions.findIn SessionState.channels

def handlerAt (b : BasicSshServerHandler S C H) (k : S × C) : Option H :=
  (b.stateAt k).bind ChannelState.handler

theorem getChannelState_eq (b : BasicSshServerHandler S C H) (s : S) (c : C) :
    b.getChannelState s c = b.stateAt (s, c) := rfl

theorem stateAt_of_find (h : b.sessions.find s = some st) (c : C) :
    b.stateAt (s, c) = st.channels.find c := findIn_of_find h c

theorem exists_find_of_stateAt (h : b.stateAt k = some ch) :
    ∃ st, b.sessions.find k.1 = some st ∧ st.channels.find k.2 = some ch :=
  Option.bind_eq_some_iff.mp h

/-- The index leads to every state, and nowhere else. -/
def Pointed (b : BasicSshServerHandler S C H) : Prop :=
  ∀ s c, b.channelIndex.find c = some s ↔ (b.stateAt (s, c)).isSome

/-- A channel has one session. -/
theorem Pointed.unique (h : b.Pointed) {s s' : S} (hs : (b.stateAt (s, c)).isSome)
    (hs' : (b.stateAt (s', c)).isSome) : s = s' :=
  Option.some.inj (((h s c).mpr hs).symm.trans ((h s' c).mpr hs'))

theorem Pointed.congr (h : b.Pointed) (hindex : b'.channelIndex = b.channelIndex)
    (hstate : ∀ k, (b'.stateAt k).isSome = (b.stateAt k).isSome) : b'.Pointed := fun s c => by
  rw [hindex, hstate]
  exact h s c

/-- States that go, and go from the index. -/
theorem Pointed.drop (h : b.Pointed) {gone : C → Prop} [DecidablePred gone]
    (hindex : ∀ c, b'.channelIndex.find c = if gone c then none else b.channelIndex.find c)
    (hstate : ∀ k, b'.stateAt k = if k.1 = s ∧ gone k.2 then none else b.stateAt k)
    (hgone : ∀ c, gone c → ∀ s', (b.stateAt (s', c)).isSome → s' = s) : b'.Pointed := by
  intro s' c
  rw [hindex, hstate]
  by_cases hc : gone c
  · rw [if_pos hc]
    refine iff_of_false (Option.some_ne_none s').symm fun hsome => ?_
    split at hsome
    · exact absurd hsome Bool.false_ne_true
    · rename_i hs
      exact hs ⟨hgone c hc s' hsome, hc⟩
  · rw [if_neg hc, if_neg fun hand => hc hand.2]
    exact h s' c

/-! ### One channel -/

omit [DecidableEq C] in
theorem mem_keys_assign_of_find (h : b.sessions.find s = some st) (st' : SessionState C H)
    (s' : S) : s' ∈ (b.sessions.assign s st').keys ↔ s' ∈ b.sessions.keys :=
  mem_keys_assign.trans (or_iff_right_of_imp fun heq =>
    heq ▸ find_isSome_iff.mp (Option.isSome_of_mem h))

theorem find_setChannelState (hst : b.sessions.find s = some st) (ch : ChannelState H) :
    b.setChannelState s c ch =
      { b with sessions := b.sessions.assign s ⟨st.channels.assign c ch⟩ } := by
  rw [setChannelState, hst]

theorem stateAt_setChannelState (h : b.stateAt (s, c) = some ch) (ch' : ChannelState H) :
    (b.setChannelState s c ch').stateAt = Function.update b.stateAt (s, c) (some ch') := by
  obtain ⟨st, hst, -⟩ := exists_find_of_stateAt h
  rw [find_setChannelState hst]
  exact findIn_assign_update hst fun c' => find_assign ..

theorem mem_keys_setChannelState (h : b.stateAt (s, c) = some ch) (ch' : ChannelState H) (s' : S) :
    s' ∈ (b.setChannelState s c ch').sessions.keys ↔ s' ∈ b.sessions.keys := by
  obtain ⟨st, hst, -⟩ := exists_find_of_stateAt h
  rw [find_setChannelState hst]
  exact mem_keys_assign_of_find hst _ s'

theorem channelIndex_setChannelState (b : BasicSshServerHandler S C H) (s : S) (c : C)
    (ch : ChannelState H) : (b.setChannelState s c ch).channelIndex = b.channelIndex := by
  rw [setChannelState]
  split
  · rfl
  · rfl

theorem isSome_update_stateAt (h : b.stateAt k = some ch) (ch' : ChannelState H) (k' : S × C) :
    (Function.update b.stateAt k (some ch') k').isSome = (b.stateAt k').isSome := by
  rw [Function.update_apply]
  split
  · rename_i hk
    rw [hk, h]
    rfl
  · rfl

theorem Pointed.setChannelState (hb : b.Pointed) (h : b.stateAt (s, c) = some ch)
    (ch' : ChannelState H) : (b.setChannelState s c ch').Pointed := by
  refine hb.congr (channelIndex_setChannelState b s c ch') fun k => ?_
  rw [stateAt_setChannelState h]
  exact isSome_update_stateAt h ch' k

theorem handlerAt_setChannelState (h : b.stateAt (s, c) = some ch) (ch' : ChannelState H) :
    (b.setChannelState s c ch').handlerAt =
      Function.update b.handlerAt (s, c) ch'.handler := by
  funext k
  rw [handlerAt, stateAt_setChannelState h, Function.update_apply, Function.update_apply]
  split
  · rfl
  · rfl

theorem handlerAt_of_stateAt (h : b.stateAt k = some ch) : b.handlerAt k = ch.handler := by
  rw [handlerAt, h, Option.bind_some]

/-! ### The subsystem handlers -/

/-- Events that use channels which have a state, and no others. -/
def Uses (b : BasicSshServerHandler S C H) (events : List (SshEvent S C H)) : Prop :=
  ∀ e ∈ events, ∀ c, channelLifecycle.subject e = some c →
    (∃ s, (b.stateAt (s, c)).isSome) ∧ channelLifecycle.next true e = some true

theorem Uses.of_silent {events : List (SshEvent S C H)}
    (h : ∀ e ∈ events, channelLifecycle.subject e = none) : b.Uses events := fun e he c hc => by
  rw [h e he] at hc
  exact absurd hc.symm (Option.some_ne_none c)

theorem Uses.append {events events' : List (SshEvent S C H)} (h : b.Uses events)
    (h' : b.Uses events') : b.Uses (events ++ events') := fun e he =>
  (List.mem_append.mp he).elim (h e) (h' e)

theorem Uses.mono {events : List (SshEvent S C H)} (h : b'.Uses events)
    (hstate : ∀ k, (b'.stateAt k).isSome → (b.stateAt k).isSome) : b.Uses events :=
  fun e he c hc => ⟨(h e he c hc).1.imp fun s => hstate (s, c), (h e he c hc).2⟩

/-- The index is right, and the subsystem handlers that the channels own run. -/
structure Managed [DecidableEq H] (b : BasicSshServerHandler S C H) (log : List (SshEvent S C H)) :
    Prop where
  pointed : b.Pointed
  held : handlerLifecycle.Held log b.handlerAt fun _ => .running

/-- `b'` is `b` without the states of some channels of a session. -/
structure Forgets (b : BasicSshServerHandler S C H) (s : S) (cs : List C)
    (b' : BasicSshServerHandler S C H) : Prop where
  stateAt : ∀ k, b'.stateAt k = if k.1 = s ∧ k.2 ∈ cs then none else b.stateAt k
  channelIndex : ∀ c, b'.channelIndex.find c = if c ∈ cs then none else b.channelIndex.find c

namespace Forgets

theorem handlerAt_of_mem (h : b.Forgets s cs b') (hk : k ∈ cs.map (Prod.mk s)) :
    b'.handlerAt k = none := by
  rw [handlerAt, h.stateAt, if_pos (mem_places_iff.mp hk), Option.bind_none]

theorem handlerAt_of_notMem (h : b.Forgets s cs b') (hk : k ∉ cs.map (Prod.mk s)) :
    b'.handlerAt k = b.handlerAt k := by
  rw [handlerAt, h.stateAt, if_neg fun hand => hk (mem_places_iff.mpr hand), handlerAt]

theorem pointed (h : b.Forgets s cs b') (hb : b.Pointed)
    (hcs : ∀ c ∈ cs, (b.stateAt (s, c)).isSome) : b'.Pointed :=
  hb.drop h.channelIndex h.stateAt fun c hc _ hsome => hb.unique hsome (hcs c hc)

end Forgets

/-- The destructors of the states of channels. -/
def destroyed (b : BasicSshServerHandler S C H) (k : S × C) : List (SshEvent S C H) :=
  (b.handlerAt k).toList.map .destroyed

theorem destroyed_of_stateAt (b : BasicSshServerHandler S C H) (k : S × C) :
    (b.stateAt k).toList.flatMap destroy = b.destroyed k := by
  rw [destroyed, handlerAt]
  cases b.stateAt k with
  | none => rfl
  | some ch => exact List.flatMap_singleton ..

/-- The subsystem handlers of the channels are destroyed. -/
theorem Forgets.held [DecidableEq H] {phase : S × C → HandlerPhase} (hforgets : b.Forgets s cs b')
    (h : handlerLifecycle.Held log b.handlerAt phase) (hcs : cs.Nodup)
    (hphase : ∀ k, phase k ≠ .absent) :
    handlerLifecycle.Held (log ++ (cs.map (Prod.mk s)).flatMap b.destroyed) b'.handlerAt phase := by
  refine h.releaseAll (nodup_places s hcs) (fun k _ hk => ?_) (fun k _ o hk => ?_)
    (fun _ hk => hforgets.handlerAt_of_mem hk) fun _ hk => hforgets.handlerAt_of_notMem hk
  · rw [destroyed, hk]
    rfl
  · rw [destroyed, hk]
    exact takes_destroyed o (hphase k)

theorem uses_destroyed (b' : BasicSshServerHandler S C H) (ks : List (S × C)) :
    b'.Uses (ks.flatMap b.destroyed) := by
  refine Uses.of_silent fun e he => ?_
  obtain ⟨k, -, hk⟩ := List.mem_flatMap.mp he
  obtain ⟨h, -, rfl⟩ := List.mem_map.mp hk
  rfl

/-! ### A session that closes -/

theorem destroyAll_eq (h : b.sessions.find s = some st) :
    destroyAll st = (st.channels.keys.map (Prod.mk s)).flatMap b.destroyed := by
  rw [destroyAll, keys, List.map_map, List.flatMap_map]
  refine List.flatMap_congr fun e he => ?_
  rw [Function.comp_apply, destroyed, handlerAt, stateAt_of_find h,
    find_eq_some_iff.mpr he, Option.bind_some]
  rfl

theorem forgets_onSessionClosed (h : b.sessions.find s = some st) :
    b.Forgets s st.channels.keys (b.onSessionClosed s).1 := by
  rw [onSessionClosed, h]
  refine ⟨fun k => ?_, fun c => find_foldl_erase ..⟩
  refine (findIn_erase ..).trans ?_
  by_cases hk : k.1 = s
  · by_cases hc : k.2 ∈ st.channels.keys
    · rw [if_pos hk, if_pos ⟨hk, hc⟩]
    · rw [if_pos hk, if_neg fun hand => hc hand.2]
      have hnone := stateAt_of_find h k.2
      rw [find_eq_none_iff.mpr hc, ← hk] at hnone
      exact hnone.symm
  · rw [if_neg hk, if_neg fun hand => hk hand.1]
    rfl

/-- The handler lets its subsystem handlers do something. No session comes or goes, no state comes,
and the terminals stay as they are. -/
structure Turn [DecidableEq H] (b : BasicSshServerHandler S C H) (log : List (SshEvent S C H))
    (r : Handled S C H) : Prop where
  managed : r.1.Managed (log ++ r.2)
  mem_keys : ∀ s, s ∈ r.1.sessions.keys ↔ s ∈ b.sessions.keys
  stateAt : ∀ k ch', r.1.stateAt k = some ch' → ∃ ch, b.stateAt k = some ch ∧
    ch.hasPty = ch'.hasPty ∧ ch.winsize = ch'.winsize
  uses : b.Uses r.2

namespace Turn

variable [DecidableEq H] {events events' : List (SshEvent S C H)}

/-- Nothing is done. -/
theorem none (hb : b.Managed log) : b.Turn log (b, []) :=
  ⟨(List.append_nil log).symm ▸ hb, fun _ => Iff.rfl, fun _ ch hk => ⟨ch, hk, rfl, rfl⟩,
    .of_silent (List.forall_mem_nil _)⟩

theorem trans {b'' : BasicSshServerHandler S C H} (h : b.Turn log (b', events))
    (h' : b'.Turn (log ++ events) (b'', events')) : b.Turn log (b'', events ++ events') where
  managed := List.append_assoc log events events' ▸ h'.managed
  mem_keys s := (h'.mem_keys s).trans (h.mem_keys s)
  stateAt k ch'' hk := by
    obtain ⟨ch', hch', hpty', hsize'⟩ := h'.stateAt k ch'' hk
    obtain ⟨ch, hch, hpty, hsize⟩ := h.stateAt k ch' hch'
    exact ⟨ch, hch, hpty.trans hpty', hsize.trans hsize'⟩
  uses := h.uses.append <| h'.uses.mono fun k hk => by
    obtain ⟨ch', hch'⟩ := Option.isSome_iff_exists.mp hk
    obtain ⟨ch, hch, -⟩ := h.stateAt k ch' hch'
    exact Option.isSome_of_mem hch

end Turn

/-! ### A poll -/

theorem cleanupChannel_eq (h : b.sessions.find s = some st) (c : C) :
    b.cleanupChannel s c =
      (⟨b.sessions.assign s ⟨st.channels.erase c⟩, b.channelIndex.erase c⟩,
        b.destroyed (s, c)) := by
  rw [cleanupChannel, h, ← destroyed_of_stateAt, stateAt_of_find h]

theorem stateAt_cleanupChannel (h : b.sessions.find s = some st) (c : C) :
    (b.cleanupChannel s c).1.stateAt = Function.update b.stateAt (s, c) none := by
  rw [cleanupChannel_eq h]
  exact findIn_assign_update h fun c' => find_erase ..

/-- The channels that have finished go, each with its subsystem handler. -/
theorem cleanupChannels_spec (hs : s ∈ b.sessions.keys) (hcs : cs.Nodup) :
    b.Forgets s cs (cleanupChannels s cs b).1 ∧
      (∀ s', s' ∈ (cleanupChannels s cs b).1.sessions.keys ↔ s' ∈ b.sessions.keys) ∧
      (cleanupChannels s cs b).2 = (cs.map (Prod.mk s)).flatMap b.destroyed := by
  induction cs generalizing b with
  | nil => exact ⟨⟨fun k => (if_neg (by simp)).symm, fun c => (if_neg (by simp)).symm⟩,
      fun _ => Iff.rfl, rfl⟩
  | cons c cs ih =>
    rw [List.nodup_cons] at hcs
    obtain ⟨st, hst⟩ := Option.isSome_iff_exists.mp (find_isSome_iff.mpr hs)
    have hstate := stateAt_cleanupChannel hst c
    have hkeys : ∀ s', s' ∈ (b.cleanupChannel s c).1.sessions.keys ↔ s' ∈ b.sessions.keys := by
      rw [cleanupChannel_eq hst]
      exact mem_keys_assign_of_find hst _
    have hindex : ∀ c', (b.cleanupChannel s c).1.channelIndex.find c' =
        if c' = c then none else b.channelIndex.find c' := by
      rw [cleanupChannel_eq hst]
      exact find_erase b.channelIndex c
    obtain ⟨hforgets, hkeys', hevents⟩ := ih ((hkeys s).mpr hs) hcs.2
    refine ⟨⟨fun k => ?_, fun c' => ?_⟩, fun s' => (hkeys' s').trans (hkeys s'), ?_⟩
    · refine (hforgets.stateAt k).trans ?_
      rw [hstate, Function.update_apply]
      by_cases hk : k = (s, c)
      · rw [if_pos hk, ite_self, hk, if_pos ⟨rfl, List.mem_cons_self⟩]
      · have hmem : (k.1 = s ∧ k.2 ∈ c :: cs) ↔ (k.1 = s ∧ k.2 ∈ cs) :=
          and_congr_right fun hk₁ => List.mem_cons.trans
            (or_iff_right fun hk₂ => hk (Prod.ext hk₁ hk₂))
        rw [if_neg hk]
        exact if_congr hmem.symm rfl rfl
    · refine (hforgets.channelIndex c').trans ?_
      rw [hindex]
      by_cases hc : c' = c
      · rw [if_pos hc, ite_self, if_pos (hc ▸ List.mem_cons_self)]
      · rw [if_neg hc]
        exact if_congr (List.mem_cons.trans (or_iff_right hc)).symm rfl rfl
    · have hrest : ∀ k ∈ cs.map (Prod.mk s),
          (b.cleanupChannel s c).1.destroyed k = b.destroyed k := by
        intro k hk
        have hne : k ≠ (s, c) := by
          rintro rfl
          exact hcs.1 (mem_places_iff.mp hk).2
        rw [destroyed, handlerAt, hstate, Function.update_of_ne hne]
        rfl
      rw [List.map_cons, List.flatMap_cons, ← List.flatMap_congr hrest, ← hevents]
      exact congrArg (· ++ _) (congrArg Prod.snd (cleanupChannel_eq hst c))

theorem pollSession_eq (managesChannelIo : H → Bool) (answers : PollAnswers C H)
    (h : b.sessions.find s = some st) :
    b.pollSession managesChannelIo answers s =
      ((cleanupChannels s ((st.channels.entries.filter fun e => isFinished answers e.2).map
          Prod.fst) b).1,
        ((st.channels.keys.map (Prod.mk s)).flatMap fun k =>
          ((b.handlerAt k).map (pollChannel managesChannelIo answers k.2)).getD []) ++
        (cleanupChannels s ((st.channels.entries.filter fun e => isFinished answers e.2).map
          Prod.fst) b).2) := by
  rw [pollSession, h, keys, List.map_map, List.flatMap_map]
  refine Prod.ext rfl (congrArg (· ++ _) (List.flatMap_congr fun e he => ?_))
  rw [Function.comp_apply, handlerAt, stateAt_of_find h, find_eq_some_iff.mpr he,
    Option.bind_some]

theorem mem_finished_iff (answers : PollAnswers C H) (h : b.sessions.find s = some st) (c : C) :
    c ∈ (st.channels.entries.filter fun e => isFinished answers e.2).map Prod.fst ↔
      (b.handlerAt (s, c)).any fun h => !answers.isRunning h := by
  rw [handlerAt, stateAt_of_find h, List.mem_map]
  constructor
  · rintro ⟨e, he, rfl⟩
    rw [List.mem_filter] at he
    rw [find_eq_some_iff.mpr he.1]
    exact he.2
  · intro hany
    cases hfind : st.channels.find c with
    | none =>
      rw [hfind] at hany
      exact absurd hany Bool.false_ne_true
    | some ch =>
      rw [hfind] at hany
      exact ⟨(c, ch), List.mem_filter.mpr ⟨find_eq_some_iff.mp hfind, hany⟩, rfl⟩

theorem isSome_stateAt_of_handlerAt {o : H} (h : b.handlerAt k = some o) :
    (b.stateAt k).isSome := by
  obtain ⟨ch, hch, -⟩ := Option.bind_eq_some_iff.mp h
  exact Option.isSome_of_mem hch

omit [DecidableEq S] [DecidableEq C] in
theorem use_of_mem_pollChannel {o : H} {e : SshEvent S C H} {c' : C}
    (he : e ∈ pollChannel managesChannelIo answers c o)
    (hsubject : channelLifecycle.subject e = some c') :
    c' = c ∧ channelLifecycle.next true e = some true := by
  have hmem : ∀ e ∈ pollChannel (S := S) managesChannelIo answers c o,
      (∃ use, e = .channelUsed c use) ∨ channelLifecycle.subject e = none := by
    rw [pollChannel]
    split
    · split <;> simp [channelLifecycle]
    · split
      · simp [channelLifecycle]
      · split <;> simp [channelLifecycle]
  obtain ⟨use, rfl⟩ | hnone := hmem e he
  · exact ⟨(Option.some.inj hsubject).symm, rfl⟩
  · exact absurd (hnone.symm.trans hsubject) (Option.some_ne_none c').symm

/-- One session is polled: what has finished goes, and what runs goes on. -/
theorem Turn.pollSession [DecidableEq H] (managesChannelIo : H → Bool)
    (answers : PollAnswers C H) (hb : b.Managed log) (hs : s ∈ b.sessions.keys) :
    b.Turn log (b.pollSession managesChannelIo answers s) := by
  obtain ⟨st, hst⟩ := Option.isSome_iff_exists.mp (find_isSome_iff.mpr hs)
  rw [pollSession_eq managesChannelIo answers hst]
  have hfinished := mem_finished_iff answers hst
  generalize hcs : (st.channels.entries.filter fun e => isFinished answers e.2).map Prod.fst = cs
    at hfinished ⊢
  have hnodup : cs.Nodup := hcs ▸ st.channels.nodup.sublist (List.filter_sublist.map Prod.fst)
  obtain ⟨hforgets, hkeys, hevents⟩ := cleanupChannels_spec hs hnodup
  have hsome : ∀ c ∈ cs, (b.stateAt (s, c)).isSome := fun c hc => by
    obtain ⟨h, hh, -⟩ := (Option.any_eq_true _ _).mp ((hfinished c).mp hc)
    exact isSome_stateAt_of_handlerAt hh
  -- the first loop closes what has finished, the second one destroys it
  have hpolled : handlerLifecycle.Held (log ++ (st.channels.keys.map (Prod.mk s)).flatMap fun k =>
      ((b.handlerAt k).map (pollChannel managesChannelIo answers k.2)).getD []) b.handlerAt
      fun k => if k ∈ cs.map (Prod.mk s) then .closed else .running := by
    refine hb.held.moveAll (nodup_places s st.channels.nodup) (fun k _ hk => ?_)
      (fun k hmem o hk => ?_) fun k hk => if_neg fun hmem => hk ?_
    · rw [hk]
      rfl
    · rw [hk, Option.map_some, Option.getD_some]
      have hiff : k ∈ cs.map (Prod.mk s) ↔ ¬ answers.isRunning o := by
        rw [mem_places_iff, and_iff_right (mem_places_iff.mp hmem).1, hfinished,
          ← (mem_places_iff.mp hmem).1, hk]
        simp
      have ht := takes_pollChannel (S := S) managesChannelIo answers k.2 o
      by_cases ho : answers.isRunning o
      · rw [if_neg fun hk => hiff.mp hk ho]
        rwa [if_pos ho] at ht
      · rw [if_pos (hiff.mpr ho)]
        rwa [if_neg ho] at ht
    · obtain ⟨hks, hkc⟩ := mem_places_iff.mp hmem
      refine mem_places_iff.mpr ⟨hks, ?_⟩
      have hfound := hsome k.2 hkc
      rw [stateAt_of_find hst] at hfound
      exact find_isSome_iff.mp hfound
  refine ⟨⟨hforgets.pointed hb.pointed hsome, ?_⟩, hkeys, fun k ch hk => ?_, ?_⟩
  · have hheld := hforgets.held hpolled hnodup fun k => by split <;> exact HandlerPhase.noConfusion
    rw [hevents, ← List.append_assoc]
    refine hheld.congr (fun _ => rfl) fun k o hk => (if_neg fun hmem => ?_).symm
    rw [hforgets.handlerAt_of_mem hmem] at hk
    exact Option.some_ne_none o hk.symm
  · rw [hforgets.stateAt] at hk
    split at hk
    · exact absurd hk.symm (Option.some_ne_none ch)
    · exact ⟨ch, hk, rfl, rfl⟩
  · rw [hevents]
    refine Uses.append (fun e he c hc => ?_) (uses_destroyed b _)
    obtain ⟨k, -, hk⟩ := List.mem_flatMap.mp he
    cases hh : b.handlerAt k with
    | none =>
      rw [hh] at hk
      exact absurd hk List.not_mem_nil
    | some o =>
      rw [hh] at hk
      obtain ⟨rfl, hnext⟩ := use_of_mem_pollChannel hk hc
      exact ⟨⟨k.1, isSome_stateAt_of_handlerAt hh⟩, hnext⟩

theorem Turn.pollSessions [DecidableEq H] {l : List S} (hb : b.Managed log)
    (hl : ∀ s ∈ l, s ∈ b.sessions.keys) :
    b.Turn log (BasicSshServerHandler.pollSessions managesChannelIo answers l b) := by
  induction l generalizing b log with
  | nil => exact .none hb
  | cons s l ih =>
    rw [List.forall_mem_cons] at hl
    have hfirst := Turn.pollSession managesChannelIo answers hb hl.1
    exact hfirst.trans (ih hfirst.managed fun s' hs' => (hfirst.mem_keys s').mpr (hl.2 s' hs'))

/-! ### The other callbacks -/

/-- A session that the handler does not know yet. -/
theorem onSessionOpened_spec [DecidableEq H] (hb : b.Managed log) (hs : s ∉ b.sessions.keys) :
    (b.onSessionOpened s).1.Managed (log ++ (b.onSessionOpened s).2) ∧
      (∀ s', s' ∈ (b.onSessionOpened s).1.sessions.keys ↔ s' = s ∨ s' ∈ b.sessions.keys) ∧
      (b.onSessionOpened s).1.stateAt = b.stateAt ∧
      (b.onSessionOpened s).2 = [.sessionOpened s] := by
  have hnone := find_eq_none_iff.mpr hs
  have hstate : (b.onSessionOpened s).1.stateAt = b.stateAt := by
    funext k
    refine (findIn_assign ..).trans ?_
    split
    · rename_i hk
      rw [stateAt, findIn, hk, hnone]
      rfl
    · rfl
  have hevents : (b.onSessionOpened s).2 = [.sessionOpened s] := by
    rw [onSessionOpened, hnone]
    rfl
  refine ⟨⟨hb.pointed.congr rfl fun k => by rw [hstate], ?_⟩,
    fun s' => mem_keys_assign, hstate, hevents⟩
  rw [hevents]
  refine (hb.held.idle (List.forall_mem_singleton.mpr rfl)).congr (fun k => ?_) fun _ _ _ => rfl
  rw [handlerAt, hstate, handlerAt]

theorem onSessionClosed_spec [DecidableEq H] (hb : b.Managed log) (s : S) :
    (b.onSessionClosed s).1.Managed (log ++ (b.onSessionClosed s).2) ∧
      (∀ s', s' ∈ (b.onSessionClosed s).1.sessions.keys ↔ s' ≠ s ∧ s' ∈ b.sessions.keys) ∧
      (∀ k, (b.onSessionClosed s).1.stateAt k = if k.1 = s then none else b.stateAt k) ∧
      ∀ e ∈ (b.onSessionClosed s).2, channelLifecycle.subject e = none := by
  cases hst : b.sessions.find s with
  | none =>
    have hs := find_eq_none_iff.mp hst
    rw [onSessionClosed, hst]
    refine ⟨⟨hb.pointed, hb.held.idle (List.forall_mem_singleton.mpr rfl)⟩, fun s' => ?_,
      fun k => ?_, List.forall_mem_singleton.mpr rfl⟩
    · exact ⟨fun hs' => ⟨fun heq => hs (heq ▸ hs'), hs'⟩, And.right⟩
    · change b.stateAt k = _
      by_cases hk : k.1 = s
      · rw [if_pos hk, stateAt, findIn, hk, hst, Option.bind_none]
      · rw [if_neg hk]
  | some st =>
    have hforgets := forgets_onSessionClosed hst
    have hevents : (b.onSessionClosed s).2 =
        (st.channels.keys.map (Prod.mk s)).flatMap b.destroyed ++ [.sessionClosed s] := by
      rw [onSessionClosed, hst, ← destroyAll_eq hst]
    have hmap : (b.onSessionClosed s).1.sessions = b.sessions.erase s := by
      rw [onSessionClosed, hst]
    refine ⟨⟨hforgets.pointed hb.pointed fun c hc => ?_, ?_⟩, fun s' => ?_, fun k => ?_, ?_⟩
    · rw [stateAt_of_find hst]
      exact find_isSome_iff.mpr hc
    · rw [hevents, ← List.append_assoc]
      exact (hforgets.held hb.held st.channels.nodup fun _ => HandlerPhase.noConfusion).idle
        (List.forall_mem_singleton.mpr rfl)
    · rw [hmap]
      exact mem_keys_erase
    · rw [stateAt, hmap]
      exact findIn_erase ..
    · rw [hevents]
      intro e he
      rcases List.mem_append.mp he with he | he
      · obtain ⟨k, -, hk⟩ := List.mem_flatMap.mp he
        obtain ⟨h, -, rfl⟩ := List.mem_map.mp hk
        rfl
      · rw [List.mem_singleton.mp he]
        rfl

/-- A channel at an address that no state has. -/
theorem onChannelOpen_spec [DecidableEq H] (hb : b.Managed log) (hs : s ∈ b.sessions.keys)
    (hc : ∀ s', b.stateAt (s', c) = none) :
    ∃ b', b.onChannelOpen s c = (true, b', [.channelOpened s c]) ∧
      b'.Managed (log ++ [.channelOpened s c]) ∧
      (∀ s', s' ∈ b'.sessions.keys ↔ s' ∈ b.sessions.keys) ∧
      b'.stateAt = Function.update b.stateAt (s, c) (some ⟨none, false, .zero⟩) := by
  obtain ⟨st, hst⟩ := Option.isSome_iff_exists.mp (find_isSome_iff.mpr hs)
  have hnone : st.channels.find c = none := (stateAt_of_find hst c).symm.trans (hc s)
  rw [onChannelOpen, hst]
  dsimp only
  rw [hnone]
  have hstate : findIn SessionState.channels
      (b.sessions.assign s ⟨st.channels.assign c ⟨none, false, .zero⟩⟩) =
      Function.update b.stateAt (s, c) (some ⟨none, false, .zero⟩) :=
    findIn_assign_update hst fun c' => find_assign ..
  refine ⟨_, rfl, ⟨fun s' c' => ?_, ?_⟩, mem_keys_assign_of_find hst _, hstate⟩
  · rw [stateAt, hstate, find_assign, Function.update_apply]
    by_cases hc' : c' = c
    · rw [if_pos hc', hc', hc s']
      by_cases hs' : s' = s
      · rw [hs', if_pos rfl]
        exact iff_of_true rfl rfl
      · rw [if_neg fun heq => hs' (congrArg Prod.fst heq)]
        exact iff_of_false (fun heq => hs' (Option.some.inj heq).symm) Bool.false_ne_true
    · rw [if_neg hc', if_neg fun heq => hc' (congrArg Prod.snd heq)]
      exact hb.pointed s' c'
  · refine (hb.held.idle (List.forall_mem_singleton.mpr rfl)).congr (fun k => ?_) fun _ _ _ => rfl
    rw [handlerAt, stateAt, hstate, Function.update_apply]
    split
    · rename_i hk
      rw [hk, handlerAt, hc s]
      rfl
    · rfl

/-- A change of a state that does not touch its subsystem handler. -/
theorem setChannelState_spec [DecidableEq H] {events : List (SshEvent S C H)} (hb : b.Managed log)
    (h : b.stateAt (s, c) = some ch) {ch' : ChannelState H} (hch : ch'.handler = ch.handler)
    (hevents : ∀ e ∈ events, ∀ o, handlerLifecycle.subject e = some o →
      ch.handler = some o ∧ handlerLifecycle.next .running e = some .running) :
    (b.setChannelState s c ch').Managed (log ++ events) := by
  refine ⟨hb.pointed.setChannelState h ch', ?_⟩
  have hstay : handlerLifecycle.Held (log ++ events) b.handlerAt fun _ => .running :=
    hb.held.stayAll fun e he o ho =>
      ⟨(s, c), (handlerAt_of_stateAt h).trans (hevents e he o ho).1, (hevents e he o ho).2⟩
  refine hstay.congr (fun k => ?_) fun _ _ _ => rfl
  rw [handlerAt_setChannelState h, hch, ← handlerAt_of_stateAt h, Function.update_eq_self]

/-- The subsystem handler of a channel is another one. -/
theorem Turn.setHandler [DecidableEq H] {events : List (SshEvent S C H)} (hb : b.Managed log)
    (hch : b.stateAt (s, c) = some ch) (handler : Option H)
    (hheld : handlerLifecycle.Held (log ++ events)
      (Function.update b.handlerAt (s, c) handler) fun _ => .running)
    (hevents : ∀ e ∈ events, channelLifecycle.subject e = .none) :
    b.Turn log (b.setChannelState s c { ch with handler }, events) where
  managed := ⟨hb.pointed.setChannelState hch _,
    hheld.congr (fun k => by rw [handlerAt_setChannelState hch]) fun _ _ _ => rfl⟩
  mem_keys := mem_keys_setChannelState hch _
  stateAt k ch' hk := by
    rw [stateAt_setChannelState hch] at hk
    by_cases hsame : k = (s, c)
    · rw [hsame, Function.update_self] at hk
      obtain rfl := Option.some.inj hk
      exact ⟨ch, hsame ▸ hch, rfl, rfl⟩
    · rw [Function.update_of_ne hsame] at hk
      exact ⟨ch', hk, rfl, rfl⟩
  uses := .of_silent hevents

/-- A subsystem handler at an address that no channel has. -/
theorem Turn.startHandler [DecidableEq H] (hb : b.Managed log) (s : S) (c : C)
    (request : ChannelRequest) {made : Option H} (starts : Bool)
    (hmade : ∀ h, made = some h → ∀ k, b.handlerAt k ≠ some h) :
    b.Turn log (b.startHandler s c request made starts).2 := by
  rw [BasicSshServerHandler.startHandler, getChannelState_eq]
  cases hch : b.stateAt (s, c) with
  | none => exact .none hb
  | some ch =>
    cases made with
    | none => exact .none hb
    | some h =>
      -- the handler that the channel had goes first
      have hcleared : handlerLifecycle.Held (log ++ destroy ch)
          (Function.update b.handlerAt (s, c) .none) fun _ => .running := by
        have hat := handlerAt_of_stateAt hch
        rw [destroy]
        cases ho : ch.handler with
        | none =>
          rw [Option.toList_none, List.map_nil, List.append_nil, ← hat.trans ho,
            Function.update_eq_self]
          exact hb.held
        | some o =>
          exact hb.held.release (hat.trans ho) (takes_destroyed o HandlerPhase.noConfusion)
      have hclear : ∀ k, Function.update b.handlerAt (s, c) .none k ≠ some h := by
        intro k
        rw [Function.update_apply]
        split
        · exact (Option.some_ne_none h).symm
        · exact hmade h rfl k
      have hsilent : ∀ e ∈ (destroy ch : List (SshEvent S C H)),
          channelLifecycle.subject e = .none := by
        intro e he
        obtain ⟨o, -, rfl⟩ := List.mem_map.mp he
        rfl
      cases starts with
      | true =>
        have htake := hcleared.take hclear (Function.update_self ..)
          (.cons (e := .started h request true) rfl rfl .nil)
        rw [List.append_assoc, Function.update_idem] at htake
        refine .setHandler hb hch (some h) (htake.congr (fun _ => rfl) fun k _ _ => ?_) ?_
        · rw [Function.update_apply]
          split
          · rfl
          · rfl
        · exact List.forall_mem_append.mpr ⟨hsilent, List.forall_mem_singleton.mpr rfl⟩
      | false =>
        have hpass := hcleared.pass hclear
          (.cons (e := .started h request false) rfl rfl (.cons (e := .destroyed h) rfl rfl .nil))
        rw [List.append_assoc, List.append_cons (destroy ch)] at hpass
        refine .setHandler hb hch .none hpass (List.forall_mem_append.mpr
          ⟨List.forall_mem_append.mpr ⟨hsilent, List.forall_mem_singleton.mpr rfl⟩,
            List.forall_mem_singleton.mpr rfl⟩)

theorem Turn.onChannelData [DecidableEq H] (hb : b.Managed log) (s : S) (c : C)
    (bytes : List UInt8) : b.Turn log (b, b.onChannelData s c bytes) := by
  rw [BasicSshServerHandler.onChannelData, getChannelState_eq]
  cases hh : (b.stateAt (s, c)).bind ChannelState.handler with
  | none => exact .none hb
  | some h =>
    have ht : handlerLifecycle.Takes h [(.data h bytes : SshEvent S C H)] .running .running :=
      .cons rfl rfl .nil
    exact ⟨⟨hb.pointed, hb.held.stay hh ht⟩, fun _ => Iff.rfl, fun _ ch hk => ⟨ch, hk, rfl, rfl⟩,
      .of_silent (List.forall_mem_singleton.mpr rfl)⟩

theorem owns_iff [DecidableEq H] {h : H} : b.owns h = true ↔ ∃ k, b.handlerAt k = some h := by
  rw [owns, List.any_eq_true]
  constructor
  · rintro ⟨e, he, hany⟩
    obtain ⟨e', he', heq⟩ := List.any_eq_true.mp hany
    refine ⟨(e.1, e'.1), ?_⟩
    rw [handlerAt, stateAt_of_find (find_eq_some_iff.mpr he),
      find_eq_some_iff.mpr he', Option.bind_some]
    exact eq_of_beq heq
  · rintro ⟨k, hk⟩
    obtain ⟨ch, hch, hh⟩ := Option.bind_eq_some_iff.mp hk
    obtain ⟨st, hst, hfind⟩ := exists_find_of_stateAt hch
    exact ⟨_, find_eq_some_iff.mp hst, List.any_eq_true.mpr
      ⟨_, find_eq_some_iff.mp hfind, beq_iff_eq.mpr hh⟩⟩

end BasicSshServerHandler

end Sihd.Ssh
