import Sihd.Ssh.SshServerHandler

/-!
# What the server keeps

Whatever the clients do, the server calls no subsystem handler out of its turn and no channel that
is gone, and its handler knows the sessions, the channels and the terminals that the server has.
-/

namespace Sihd.Ssh

open Lifecycle UnorderedMap

variable {S C H : Type}

namespace SshServer.World

open BasicSshServerHandler

variable [DecidableEq S] [DecidableEq C] [DecidableEq H] {w w' : World S C H} {s : S} {c : C}
  {d d' : SessionData C} {managesChannelIo : H → Bool}

def channelAt (w : World S C H) : S × C → Option ChannelData :=
  w.sessionData.findIn SessionData.channels

def channelHeld (w : World S C H) (k : S × C) : Option C := (w.channelAt k).map fun _ => k.2

omit [DecidableEq H] in
theorem hasChannel_iff : w.hasChannel c = true ↔ ∃ s, (w.channelAt (s, c)).isSome := by
  rw [hasChannel, List.any_eq_true]
  constructor
  · rintro ⟨e, he, hmem⟩
    refine ⟨e.1, ?_⟩
    rw [channelAt, findIn_of_find (find_eq_some_iff.mpr he)]
    exact find_isSome_iff.mpr (of_decide_eq_true hmem)
  · rintro ⟨s, hs⟩
    obtain ⟨x, hx⟩ := Option.isSome_iff_exists.mp hs
    obtain ⟨d, hd, hfind⟩ := Option.bind_eq_some_iff.mp hx
    exact ⟨_, find_eq_some_iff.mp hd, decide_eq_true
      (find_isSome_iff.mp (Option.isSome_of_mem hfind))⟩

omit [DecidableEq H] in
theorem channelAt_eq_none (hc : w.hasChannel c = false) (s : S) : w.channelAt (s, c) = none := by
  rw [← Option.not_isSome_iff_eq_none]
  intro hsome
  exact Bool.false_ne_true (hc.symm.trans (hasChannel_iff.mpr ⟨s, hsome⟩))

/-- What holds when the handler was told that some sessions are gone, and the server still has
them. -/
structure ValidExcept (gone : List S) (w : World S C H) : Prop where
  running : ∀ s ∈ w.sessionData.keys, w.running = true
  indexed : Indexed w.sessions w.sessionData
  managed : w.handler.Managed w.events
  channels : channelLifecycle.Held w.events w.channelHeld fun _ => true
  sessions_iff : w.running = true →
    ∀ s, s ∈ w.handler.sessions.keys ↔ s ∉ gone ∧ s ∈ w.sessionData.keys
  /-- A state of the handler is one of a channel of the server, with the same terminal. -/
  agree : w.running = true → ∀ k ch, w.handler.stateAt k = some ch →
    ∃ x, w.channelAt k = some x ∧ x.hasPty = ch.hasPty ∧ x.winsize = ch.winsize
  pointers : w.invalid = false

/-- What holds whenever the server waits. -/
abbrev Valid (w : World S C H) : Prop := w.ValidExcept []

theorem valid_create : (create : World S C H).Valid where
  running _ hs := absurd hs List.not_mem_nil
  indexed := indexed_empty
  managed := ⟨fun _ _ => iff_of_false (Option.some_ne_none _).symm Bool.false_ne_true, .nil _ _⟩
  channels := .nil _ _
  sessions_iff _ _ := (and_iff_right List.not_mem_nil).symm
  agree _ _ ch h := absurd h.symm (Option.some_ne_none ch)
  pointers := rfl

theorem running_of_find {gone : List S} (hw : w.ValidExcept gone)
    (hd : w.sessionData.find s = some d) : w.running = true :=
  hw.running s (find_isSome_iff.mp (Option.isSome_of_mem hd))

omit [DecidableEq C] [DecidableEq H] in
theorem mem_keys_setData (hd : w.sessionData.find s = some d) (d' : SessionData C) (s' : S) :
    s' ∈ (w.setData s d').sessionData.keys ↔ s' ∈ w.sessionData.keys :=
  mem_keys_assign.trans (or_iff_right_of_imp fun heq =>
    heq ▸ find_isSome_iff.mp (Option.isSome_of_mem hd))

namespace ValidExcept

variable {gone : List S}

/-- A channel with a state is a channel of the server. -/
theorem channelHeld_of_stateAt (hw : w.ValidExcept gone) (hrunning : w.running = true) {k : S × C}
    (h : (w.handler.stateAt k).isSome) : w.channelHeld k = some k.2 := by
  obtain ⟨ch, hch⟩ := Option.isSome_iff_exists.mp h
  obtain ⟨x, hx, -⟩ := hw.agree hrunning k ch hch
  rw [channelHeld, hx, Option.map_some]

/-- The handler does something, and the server nothing. -/
theorem withHandler {gone' : List S} (hw : w.ValidExcept gone) (hrunning : w.running = true)
    {r : Handled S C H} (hmanaged : r.1.Managed (w.events ++ r.2))
    (hkeys : ∀ s, s ∈ r.1.sessions.keys ↔ s ∉ gone' ∧ s ∈ w.sessionData.keys)
    (hstate : ∀ k ch', r.1.stateAt k = some ch' → ∃ ch, w.handler.stateAt k = some ch ∧
      ch.hasPty = ch'.hasPty ∧ ch.winsize = ch'.winsize)
    (huses : w.handler.Uses r.2) : (w.withHandler r).ValidExcept gone' where
  running := hw.running
  indexed := hw.indexed
  managed := hmanaged
  channels := hw.channels.stayAll fun e he c hc => by
    obtain ⟨⟨s, hs⟩, hnext⟩ := huses e he c hc
    exact ⟨(s, c), hw.channelHeld_of_stateAt hrunning hs, hnext⟩
  sessions_iff _ := hkeys
  agree _ k ch' hch' := by
    obtain ⟨ch, hch, hpty, hsize⟩ := hstate k ch' hch'
    obtain ⟨x, hx, hpty', hsize'⟩ := hw.agree hrunning k ch hch
    exact ⟨x, hx, hpty'.trans hpty, hsize'.trans hsize⟩
  pointers := hw.pointers

/-- The terminal of a channel changes, in the server and in the handler. -/
theorem setTerminal (hw : w.ValidExcept gone) (hd : w.sessionData.find s = some d)
    {x₀ x : ChannelData} (hx : d.channels.find c = some x₀) {b : BasicSshServerHandler S C H}
    {events : List (SshEvent S C H)} (hmanaged : b.Managed (w.events ++ events))
    (hkeys : ∀ s, s ∈ b.sessions.keys ↔ s ∈ w.handler.sessions.keys)
    (hself : ∀ ch, b.stateAt (s, c) = some ch → x.hasPty = ch.hasPty ∧ x.winsize = ch.winsize)
    (hother : ∀ k, k ≠ (s, c) → b.stateAt k = w.handler.stateAt k)
    (hevents : ∀ e ∈ events, channelLifecycle.subject e = none) :
    ((w.setData s ⟨d.channels.assign c x⟩).withHandler
      (b, events)).ValidExcept gone := by
  have hrunning := running_of_find hw hd
  have hdata := mem_keys_setData hd ⟨d.channels.assign c x⟩
  have hat : ((w.setData s ⟨d.channels.assign c x⟩).withHandler (b, events)).channelAt =
      Function.update w.channelAt (s, c) (some x) :=
    findIn_assign_update hd fun c' => find_assign ..
  refine ⟨fun s' hs' => hw.running s' ((hdata s').mp hs'), ?_, hmanaged, ?_, fun _ s' => ?_,
    fun _ k ch hk => ?_, hw.pointers⟩
  · exact ⟨hw.indexed.nodup, fun s' => (hw.indexed.mem_iff s').trans (hdata s').symm⟩
  · refine (hw.channels.idle hevents).congr (fun k => ?_) fun _ _ _ => rfl
    rw [channelHeld, hat, Function.update_apply]
    split
    · rename_i hk
      rw [hk, channelHeld, channelAt, findIn_of_find hd, hx]
      rfl
    · rfl
  · exact (hkeys s').trans ((hw.sessions_iff hrunning s').trans
      (and_congr_right' (hdata s').symm))
  · rw [hat]
    by_cases hk' : k = (s, c)
    · rw [hk'] at hk ⊢
      exact ⟨x, Function.update_self .., hself ch hk⟩
    · rw [Function.update_of_ne hk']
      exact hw.agree hrunning k ch ((hother k hk').symm.trans hk)

/-! ### The callbacks -/

theorem ptyRequest (hw : w.ValidExcept gone) (hd : w.sessionData.find s = some d) (c : C)
    (size : WinSize) : (w.callbackChannelPtyRequest s d c size).2.ValidExcept gone := by
  rw [callbackChannelPtyRequest]
  cases hx : d.channels.find c with
  | none => exact hw
  | some x₀ =>
    have hset {b : BasicSshServerHandler S C H} (hmanaged : b.Managed (w.events ++ [])) :=
      hw.setTerminal hd hx (x := ⟨true, size⟩) hmanaged
    simp only [World.withHandler, List.append_nil] at hset
    have hget : (w.setData s ⟨d.channels.assign c ⟨true, size⟩⟩).handler =
      w.handler := rfl
    dsimp only
    rw [hget, onChannelRequestPty, getChannelState_eq]
    cases hch : w.handler.stateAt (s, c) with
    | none =>
      refine hset hw.managed (fun _ => Iff.rfl) (fun ch h => ?_) (fun _ _ => rfl)
        (List.forall_mem_nil _)
      exact absurd (hch.symm.trans h).symm (Option.some_ne_none ch)
    | some ch =>
      have hmanaged : (w.handler.setChannelState s c
          { ch with hasPty := true, winsize := size }).Managed (w.events ++ []) :=
        setChannelState_spec hw.managed hch rfl (List.forall_mem_nil _)
      rw [List.append_nil] at hmanaged
      refine hset hmanaged (mem_keys_setChannelState hch _) (fun ch' h => ?_)
        (fun k hk => ?_) (List.forall_mem_nil _)
      · rw [stateAt_setChannelState hch, Function.update_self] at h
        cases h
        exact ⟨rfl, rfl⟩
      · rw [stateAt_setChannelState hch, Function.update_of_ne hk]

theorem ptyResize (hw : w.ValidExcept gone) (hd : w.sessionData.find s = some d) (c : C)
    (size : WinSize) : (w.callbackChannelPtyResize s d c size).2.ValidExcept gone := by
  have hrunning := running_of_find hw hd
  rw [callbackChannelPtyResize]
  cases hx : d.channels.find c with
  | none => exact hw
  | some x₀ =>
    have hget : (w.setData s ⟨d.channels.assign c { x₀ with winsize := size }⟩).handler =
      w.handler := rfl
    dsimp only
    rw [hget, onChannelPtyResize, getChannelState_eq]
    cases hch : w.handler.stateAt (s, c) with
    | none =>
      refine hw.setTerminal hd hx (by rw [List.append_nil]; exact hw.managed) (fun _ => Iff.rfl)
        (fun ch h => ?_) (fun _ _ => rfl) (List.forall_mem_nil _)
      exact absurd (hch.symm.trans h).symm (Option.some_ne_none ch)
    | some ch =>
      obtain ⟨x, hx', hpty, -⟩ := hw.agree hrunning (s, c) ch hch
      rw [channelAt, findIn_of_find hd, hx] at hx'
      obtain rfl := Option.some.inj hx'
      refine hw.setTerminal hd hx (setChannelState_spec hw.managed hch rfl
        fun e he o ho => ?_) (mem_keys_setChannelState hch _)
        (fun ch' h => ?_) (fun k hk => ?_) fun e he => ?_
      · obtain ⟨h, hh, rfl⟩ := List.mem_map.mp he
        cases ho
        exact ⟨Option.mem_toList.mp hh, rfl⟩
      · rw [stateAt_setChannelState hch, Function.update_self] at h
        cases h
        exact ⟨hpty, rfl⟩
      · rw [stateAt_setChannelState hch, Function.update_of_ne hk]
      · obtain ⟨h, -, rfl⟩ := List.mem_map.mp he
        rfl

/-- The handler lets its subsystem handlers do something. -/
theorem turn (hw : w.ValidExcept gone) (hrunning : w.running = true)
    {r : Handled S C H} (h : w.handler.Turn w.events r) :
    (w.withHandler r).ValidExcept gone :=
  hw.withHandler hrunning h.managed
    (fun s => (h.mem_keys s).trans (hw.sessions_iff hrunning s)) h.stateAt h.uses

theorem request (hw : w.ValidExcept gone) (hd : w.sessionData.find s = some d) (c : C)
    (request : ChannelRequest) {made : Option H} (starts : Bool)
    (hmade : ∀ h, made = some h → w.handler.owns h = false) :
    (w.callbackChannelRequest s d c request made starts).2.ValidExcept gone := by
  have hrunning := running_of_find hw hd
  have hfree : ∀ h, made = some h → ∀ k, w.handler.handlerAt k ≠ some h := fun h hh k hk =>
    Bool.false_ne_true ((hmade h hh).symm.trans (owns_iff.mpr ⟨k, hk⟩))
  have hstart := fun request =>
    hw.turn hrunning (.startHandler hw.managed s c request starts hfree)
  unfold callbackChannelRequest
  cases d.channels.find c with
  | none => exact hw
  | some x =>
    cases request with
    | shell => exact hstart .shell
    | exec command => exact hstart (.exec command)
    | subsystem name => exact hstart (.subsystem name)

theorem data (hw : w.ValidExcept gone) (hd : w.sessionData.find s = some d) (c : C)
    (bytes : List UInt8) :
    (w.callbackChannelData managesChannelIo s d c bytes).2.ValidExcept gone := by
  have hrunning := running_of_find hw hd
  rw [callbackChannelData]
  cases d.channels.find c with
  | none => exact hw
  | some x =>
    have hbypasses : (w.handler.channelBypassesDataCallback managesChannelIo c).isSome := by
      rw [channelBypassesDataCallback]
      cases hindex : w.handler.channelIndex.find c with
      | none => rfl
      | some s' =>
        obtain ⟨ch, hch⟩ := Option.isSome_iff_exists.mp ((hw.managed.pointed s' c).mp hindex)
        change ((w.handler.stateAt (s', c)).map _).isSome
        rw [hch]
        rfl
    obtain ⟨bypasses, hbypasses⟩ := Option.isSome_iff_exists.mp hbypasses
    dsimp only
    rw [hbypasses]
    cases bypasses with
    | true => exact hw
    | false => exact hw.turn hrunning (.onChannelData hw.managed s c bytes)

theorem channelOpen (hw : w.Valid) (hd : w.sessionData.find s = some d)
    (hc : w.hasChannel c = false) : (w.callbackChannelOpen s d c).Valid := by
  have hrunning := running_of_find hw hd
  have hnone := channelAt_eq_none hc
  have hs : s ∈ w.handler.sessions.keys := (hw.sessions_iff hrunning s).mpr
    ⟨List.not_mem_nil, find_isSome_iff.mp (Option.isSome_of_mem hd)⟩
  have hstate : ∀ s', w.handler.stateAt (s', c) = none := fun s' => by
    rw [← Option.not_isSome_iff_eq_none]
    intro hsome
    have hheld := hw.channelHeld_of_stateAt hrunning hsome
    rw [channelHeld, hnone] at hheld
    exact Option.some_ne_none _ hheld.symm
  have hcreated : w.handler.Managed (w.events ++ [.channelCreated c]) :=
    ⟨hw.managed.pointed, hw.managed.held.idle (List.forall_mem_singleton.mpr rfl)⟩
  obtain ⟨b, hopen, hmanaged, hkeys, hat'⟩ :=
    onChannelOpen_spec hcreated hs hstate
  have hdc : d.channels.find c = none := (findIn_of_find hd c).symm.trans (hnone s)
  have hat : findIn SessionData.channels
      (w.sessionData.assign s ⟨d.channels.emplace c ⟨false, .zero⟩⟩) =
      Function.update w.channelAt (s, c) (some ⟨false, .zero⟩) := by
    refine findIn_assign_update hd fun c' => ?_
    rw [find_emplace, hdc, Option.getD_none]
  have hdata := mem_keys_setData hd ⟨d.channels.emplace c ⟨false, .zero⟩⟩
  rw [callbackChannelOpen]
  dsimp only
  rw [hopen, if_pos rfl]
  refine ⟨fun s' hs' => hw.running s' ((hdata s').mp hs'), ?_, hmanaged, ?_, fun _ s' => ?_,
    fun _ k ch hk => ?_, hw.pointers⟩
  · exact ⟨hw.indexed.nodup, fun s' => (hw.indexed.mem_iff s').trans (hdata s').symm⟩
  · have htake := hw.channels.take (o := c) (k := (s, c)) (fun k hk => ?_)
      (congrArg (Option.map _) (hnone s))
      (.cons (e := .channelCreated c) rfl rfl (.cons (e := .channelOpened s c) rfl rfl .nil))
    · rw [List.append_cons] at htake
      refine htake.congr (fun k => ?_) fun k _ _ => ?_
      · refine (congrArg (Option.map _) (congrFun hat k)).trans ?_
        rw [Function.update_apply, Function.update_apply]
        split
        · rename_i hk
          rw [hk]
          rfl
        · rfl
      · rw [Function.update_apply, ite_self]
    · obtain ⟨x, hx, hkc⟩ := Option.map_eq_some_iff.mp hk
      have hat := hnone k.1
      rw [← hkc] at hat
      exact Option.some_ne_none x (hx.symm.trans hat)
  · exact (hkeys s').trans ((hw.sessions_iff hrunning s').trans (and_congr_right' (hdata s').symm))
  · have hk := (congrFun hat' k).symm.trans hk
    by_cases hk' : k = (s, c)
    · rw [hk', Function.update_self] at hk
      obtain rfl := Option.some.inj hk
      refine ⟨⟨false, .zero⟩, (congrFun hat k).trans ?_, rfl, rfl⟩
      rw [hk', Function.update_self]
    · rw [Function.update_of_ne hk'] at hk
      obtain ⟨x, hx, hagree⟩ := hw.agree hrunning k ch hk
      exact ⟨x, (congrFun hat k).trans ((Function.update_of_ne hk' _ _).trans hx), hagree⟩

/-! ### The loop -/

theorem accept (hw : w.Valid) (hrunning : w.running = true) (hs : s ∉ w.sessionData.keys)
    (keyExchange : Bool) : (w.acceptSession s keyExchange).Valid := by
  cases keyExchange with
  | false =>
    have hsame : w.acceptSession s false = w := by
      obtain ⟨running, sessionData, sessions, handler, invalid, events⟩ := w
      exact congrArg (World.mk running · sessions handler invalid events)
        (erase_assign_of_notMem hs _)
    rw [hsame]
    exact hw
  | true =>
    have hat : (w.acceptSession s true).channelAt = w.channelAt := by
      funext k
      refine (findIn_assign ..).trans ?_
      split
      · rename_i hk
        rw [channelAt, findIn, hk, find_eq_none_iff.mpr hs]
        rfl
      · rfl
    have hsessions : s ∉ w.handler.sessions.keys := fun h =>
      hs ((hw.sessions_iff hrunning s).mp h).2
    obtain ⟨hmanaged, hkeys, hstate, hevents⟩ :=
      onSessionOpened_spec hw.managed hsessions
    refine ⟨fun _ _ => hrunning, ?_, hmanaged, ?_, fun _ s' => ?_, ?_, hw.pointers⟩
    · exact hw.indexed.assign (fun h => hs ((hw.indexed.mem_iff s).mp h)) _
    · have hsilent : ∀ e ∈ (w.handler.onSessionOpened s).2, channelLifecycle.subject e = none := by
        rw [hevents]
        exact List.forall_mem_singleton.mpr rfl
      exact (hw.channels.idle hsilent).congr
        (fun k => congrArg (Option.map _) (congrFun hat k)) fun _ _ _ => rfl
    · refine (hkeys s').trans ?_
      rw [hw.sessions_iff hrunning, and_iff_right List.not_mem_nil,
        and_iff_right List.not_mem_nil]
      exact mem_keys_assign.symm
    · intro _ k ch hk
      rw [hat]
      exact hw.agree hrunning k ch ((congrFun hstate k).symm.trans hk)

/-- Closing a session has two steps: the handler is told, then the server drops it. -/
theorem sessionClosed (hw : w.ValidExcept gone) (hrunning : w.running = true) (s : S) :
    (w.withHandler (w.handler.onSessionClosed s)).ValidExcept (s :: gone) := by
  obtain ⟨hmanaged, hkeys, hstate, hsilent⟩ :=
    onSessionClosed_spec hw.managed s
  refine hw.withHandler hrunning hmanaged (fun s' => ?_) (fun k ch hk => ?_) (.of_silent hsilent)
  · rw [hkeys, hw.sessions_iff hrunning, List.mem_cons, not_or, and_assoc]
  · rw [hstate] at hk
    split at hk
    · exact absurd hk.symm (Option.some_ne_none ch)
    · exact ⟨ch, hk, rfl, rfl⟩

theorem notifyClosed (hw : w.ValidExcept gone) (hrunning : w.running = true) (l : List S) :
    (World.notifyClosed l w).ValidExcept (l.reverse ++ gone) := by
  induction l generalizing w gone with
  | nil => exact hw
  | cons s l ih =>
    rw [List.reverse_cons, List.append_assoc]
    exact ih (hw.sessionClosed hrunning s) hrunning

omit [DecidableEq C] [DecidableEq H] in
theorem cleanupSession_of_find (hd : w.sessionData.find s = some d) :
    w.cleanupSession s = { w with
      sessionData := w.sessionData.erase s
      sessions := w.sessions.filter fun s' => s' ≠ s
      events := w.events ++ d.channels.keys.map .channelDeleted } := by
  rw [World.cleanupSession, hd]
  rfl

theorem cleanupSession (hw : w.ValidExcept (s :: gone)) :
    (w.cleanupSession s).ValidExcept gone := by
  cases hd : w.sessionData.find s with
  | none =>
    have hs : s ∉ w.sessions := fun h =>
      find_eq_none_iff.mp hd ((hw.indexed.mem_iff s).mp h)
    have hfilter : w.sessions.filter (fun s' => s' ≠ s) = w.sessions := by
      rw [List.filter_eq_self]
      intro s' hs'
      simpa using ne_of_mem_of_not_mem hs' hs
    rw [World.cleanupSession, hd]
    dsimp only
    rw [hfilter]
    refine ⟨hw.running, hw.indexed, hw.managed, hw.channels, fun hrunning s' => ?_, hw.agree,
      hw.pointers⟩
    refine (hw.sessions_iff hrunning s').trans (and_congr_left fun hs' => ?_)
    rw [List.mem_cons, not_or]
    exact and_iff_right fun heq => find_eq_none_iff.mp hd (heq ▸ hs')
  | some d =>
    have hkeys : ∀ s', s' ∈ (w.sessionData.erase s).keys ↔ s' ≠ s ∧ s' ∈ w.sessionData.keys :=
      fun s' => mem_keys_erase
    have hat : ∀ k, findIn SessionData.channels (w.sessionData.erase s) k =
        if k.1 = s then none else w.channelAt k := findIn_erase w.sessionData s
    have hheld : ∀ k ∈ d.channels.keys.map (Prod.mk s), w.channelHeld k = some k.2 := by
      intro k hk
      obtain ⟨c, hc, rfl⟩ := List.mem_map.mp hk
      obtain ⟨x, hx⟩ := Option.isSome_iff_exists.mp (find_isSome_iff.mpr hc)
      rw [channelHeld, channelAt, findIn_of_find hd, hx, Option.map_some]
    rw [cleanupSession_of_find hd]
    refine ⟨fun s' hs' => hw.running s' ((hkeys s').mp hs').2, ?_, ⟨hw.managed.pointed, ?_⟩, ?_,
      fun hrunning s' => ?_, fun hrunning k ch hk => ?_, hw.pointers⟩
    · refine ⟨hw.indexed.nodup.filter _, fun s' => ?_⟩
      rw [List.mem_filter, hw.indexed.mem_iff]
      exact and_comm.trans ((and_congr_left' (by simp)).trans (hkeys s').symm)
    · refine hw.managed.held.idle fun e he => ?_
      obtain ⟨c, -, rfl⟩ := List.mem_map.mp he
      rfl
    · have hevents : d.channels.keys.map (SshEvent.channelDeleted (S := S) (H := H)) =
          (d.channels.keys.map (Prod.mk s)).flatMap fun k => [.channelDeleted k.2] := by
        rw [List.flatMap_map]
        exact List.map_eq_flatMap
      dsimp only
      rw [hevents]
      refine hw.channels.releaseAll (nodup_places s d.channels.nodup)
        (fun k hk hnone => ?_) (fun k hk c hc => ?_) (fun k hk => ?_) fun k hk => ?_
      · exact absurd ((hheld k hk).symm.trans hnone) (Option.some_ne_none _)
      · obtain rfl := Option.some.inj ((hheld k hk).symm.trans hc)
        exact .cons rfl rfl .nil
      · exact congrArg (Option.map _) ((hat k).trans
          (if_pos (mem_places_iff.mp hk).1))
      · refine congrArg (Option.map _) ((hat k).trans ?_)
        by_cases hks : k.1 = s
        · rw [if_pos hks, ← Option.not_isSome_iff_eq_none.mp]
          intro hsome
          refine hk (mem_places_iff.mpr ⟨hks, ?_⟩)
          have hk' : k = (s, k.2) := Prod.ext hks rfl
          rw [hk', channelAt, findIn_of_find hd] at hsome
          exact find_isSome_iff.mp hsome
        · exact if_neg hks
    · refine (hw.sessions_iff hrunning s').trans ?_
      rw [List.mem_cons, not_or, and_comm (a := s' ≠ s), and_assoc]
      exact and_congr_right' (hkeys s').symm
    · obtain ⟨x, hx, hagree⟩ := hw.agree hrunning k ch hk
      have hks : k.1 ≠ s := by
        intro heq
        obtain ⟨st, hst, -⟩ := exists_find_of_stateAt hk
        have hmem := find_isSome_iff.mp (Option.isSome_of_mem hst)
        exact ((hw.sessions_iff hrunning k.1).mp hmem).1 (heq ▸ List.mem_cons_self)
      exact ⟨x, (hat k).trans ((if_neg hks).trans hx), hagree⟩

theorem congr {gone' : List S} (hw : w.ValidExcept gone) (hgone : ∀ s, s ∈ gone' ↔ s ∈ gone) :
    w.ValidExcept gone' where
  running := hw.running
  indexed := hw.indexed
  managed := hw.managed
  channels := hw.channels
  sessions_iff hrunning s :=
    (hw.sessions_iff hrunning s).trans (and_congr_left' (not_congr (hgone s).symm))
  agree := hw.agree
  pointers := hw.pointers

theorem foldl_cleanupSession {l : List S} (hw : w.ValidExcept l) :
    (l.foldl World.cleanupSession w).Valid := by
  induction l generalizing w with
  | nil => exact hw
  | cons s l ih => exact ih hw.cleanupSession

theorem cleanupClosedSessions (hw : w.Valid) (hrunning : w.running = true) (closed : S → Bool) :
    (w.cleanupClosedSessions closed).Valid := by
  refine foldl_cleanupSession ((hw.notifyClosed hrunning _).congr fun s => ?_)
  rw [List.append_nil, List.mem_reverse]

theorem cleanup (hw : w.ValidExcept gone) : w.cleanup.Valid := by
  have hevents : (w.sessionData.entries.flatMap fun e => e.2.channels.keys.map
      (SshEvent.channelDeleted (S := S) (H := H))) =
      (w.sessionData.keysIn SessionData.channels).flatMap fun k => [.channelDeleted k.2] := by
    rw [keysIn, List.flatMap_assoc]
    refine List.flatMap_congr fun e _ => ?_
    rw [List.flatMap_map]
    exact List.map_eq_flatMap
  have hheld : ∀ k ∈ w.sessionData.keysIn SessionData.channels, w.channelHeld k = some k.2 := by
    intro k hk
    obtain ⟨x, hx⟩ := Option.isSome_iff_exists.mp (mem_keysIn.mp hk)
    exact congrArg (Option.map _) hx
  refine ⟨fun _ hs => absurd hs List.not_mem_nil, indexed_empty,
    ⟨hw.managed.pointed, hw.managed.held.idle fun e he => ?_⟩, ?_,
    fun h => absurd h Bool.false_ne_true, fun h => absurd h Bool.false_ne_true, hw.pointers⟩
  · obtain ⟨e', -, he'⟩ := List.mem_flatMap.mp he
    obtain ⟨c, -, rfl⟩ := List.mem_map.mp he'
    rfl
  · rw [World.cleanup]
    dsimp only
    rw [hevents]
    refine hw.channels.releaseAll (nodup_keysIn ..) (fun k hk hnone => ?_)
      (fun k hk c hc => ?_) (fun _ _ => rfl) fun k hk => ?_
    · exact absurd ((hheld k hk).symm.trans hnone) (Option.some_ne_none _)
    · obtain rfl := Option.some.inj ((hheld k hk).symm.trans hc)
      exact .cons rfl rfl .nil
    · rw [mem_keysIn, Option.not_isSome_iff_eq_none] at hk
      exact (congrArg (Option.map _) hk).symm

end ValidExcept

/-- Every step keeps what holds whenever the server waits. -/
theorem valid_step (hw : w.Valid) {a : Action S C H} (hallowed : w.Allowed a)
    (hstep : w.step managesChannelIo a = some w') : w'.Valid := by
  cases a with
  | accept s keyExchange =>
    obtain ⟨hrunning, ⟨⟩⟩ := Option.ite_none_right_eq_some.mp hstep
    exact hw.accept hrunning hallowed keyExchange
  | channelOpen s c =>
    obtain ⟨d, hd, rfl⟩ := Option.map_eq_some_iff.mp hstep
    exact hw.channelOpen hd hallowed
  | ptyRequest s c size =>
    obtain ⟨d, hd, rfl⟩ := Option.map_eq_some_iff.mp hstep
    exact hw.ptyRequest hd c size
  | ptyResize s c size =>
    obtain ⟨d, hd, rfl⟩ := Option.map_eq_some_iff.mp hstep
    exact hw.ptyResize hd c size
  | request s c request made starts =>
    obtain ⟨d, hd, rfl⟩ := Option.map_eq_some_iff.mp hstep
    refine hw.request hd c request starts fun h hh => ?_
    subst hh
    exact hallowed
  | data s c bytes =>
    obtain ⟨d, hd, rfl⟩ := Option.map_eq_some_iff.mp hstep
    exact hw.data hd c bytes
  | poll answers =>
    obtain ⟨hrunning, ⟨⟩⟩ := Option.ite_none_right_eq_some.mp hstep
    exact hw.turn hrunning (.pollSessions hw.managed fun _ hs => hs)
  | cleanupClosedSessions closed =>
    obtain ⟨hrunning, ⟨⟩⟩ := Option.ite_none_right_eq_some.mp hstep
    exact hw.cleanupClosedSessions hrunning closed
  | stop =>
    obtain ⟨-, ⟨⟩⟩ := Option.ite_none_right_eq_some.mp hstep
    exact hw.cleanup

theorem Reachable.valid (h : Reachable managesChannelIo w) : w.Valid :=
  h.invariant (fun _ hw => hw ▸ valid_create) fun _ _ _ hw => valid_step hw

instance decidableAllowed (w : World S C H) : (a : Action S C H) → Decidable (w.Allowed a)
  | .accept s _ => inferInstanceAs (Decidable (s ∉ w.sessionData.keys))
  | .channelOpen _ c => inferInstanceAs (Decidable (w.hasChannel c = false))
  | .request _ _ _ (some h) _ => inferInstanceAs (Decidable (w.handler.owns h = false))
  | .request _ _ _ none _ => isTrue trivial
  | .ptyRequest .. | .ptyResize .. | .data .. | .poll _ | .cleanupClosedSessions _ | .stop =>
    isTrue trivial

/-- What a run that was evaluated leads to is reachable. -/
theorem exists_reachable (managesChannelIo : H → Bool) (actions : List (Action S C H))
    {P : World S C H → Prop} [DecidablePred P]
    (h : (Transition.runs (Transition.guarded (step managesChannelIo)
      fun w a => decide (w.Allowed a)) create actions).any (fun w => decide (P w)) = true) :
    ∃ w, Reachable managesChannelIo w ∧ P w := by
  obtain ⟨w, hw, hP⟩ := @Transition.Reaches.exists_of_runs_guarded _ _ (step managesChannelIo)
    (· = create) _ _ _ P _ rfl h
  exact ⟨w, hw.mono fun _ _ => of_decide_eq_true, hP⟩

/-- A subsystem handler that a channel owns is running and no other is alive: whatever was done
with a handler was done in its turn. -/
theorem Reachable.phaseAfter_handler (h : Reachable managesChannelIo w) (o : H) :
    handlerLifecycle.phaseAfter o w.events =
      some (if w.handler.owns o then .running else .absent) := by
  have hheld := h.valid.managed.held
  by_cases ho : w.handler.owns o = true
  · obtain ⟨k, hk⟩ := owns_iff.mp ho
    rw [if_pos ho]
    exact hheld.phase_of_held k o hk
  · rw [if_neg ho]
    exact hheld.phase_of_free o fun k hk => ho (owns_iff.mpr ⟨k, hk⟩)

/-- A shell that was replaced by a command, which gets data. -/
theorem phaseAfter_handler_of_run : ∃ w : World Nat Nat Nat,
    (w.handler.owns 7 = true ∧ w.handler.owns 6 = false) ∧ ∀ o : Nat,
      handlerLifecycle.phaseAfter o w.events =
        some (if w.handler.owns o then .running else .absent) := by
  obtain ⟨w, hw, ho⟩ := exists_reachable (S := Nat) (C := Nat) (H := Nat) (fun _ => false)
    [.accept 1 true, .channelOpen 1 2, .request 1 2 .shell (some 6) true,
      .request 1 2 (.exec [108, 115]) (some 7) true, .data 1 2 [10]]
    (P := fun w => w.handler.owns 7 = true ∧ w.handler.owns 6 = false) (by decide)
  exact ⟨w, ho, hw.phaseAfter_handler⟩

/-- The channels that are there are those of the sessions: none is used before it is created or
after it is deleted, none is deleted twice, and none is left behind. -/
theorem Reachable.phaseAfter_channel (h : Reachable managesChannelIo w) (c : C) :
    channelLifecycle.phaseAfter c w.events = some (w.hasChannel c) := by
  have hheld := h.valid.channels
  cases hc : w.hasChannel c with
  | true =>
    obtain ⟨s, hs⟩ := hasChannel_iff.mp hc
    obtain ⟨x, hx⟩ := Option.isSome_iff_exists.mp hs
    exact hheld.phase_of_held (s, c) c (by rw [channelHeld, hx, Option.map_some])
  | false =>
    refine hheld.phase_of_free c fun k hk => ?_
    obtain ⟨x, hx, hkc⟩ := Option.map_eq_some_iff.mp hk
    have hnone := channelAt_eq_none hc k.1
    rw [← hkc] at hnone
    exact Option.some_ne_none x (hx.symm.trans hnone)

/-- A session with two channels is closed. -/
theorem phaseAfter_channel_of_run : ∃ w : World Nat Nat Nat,
    (w.running = true ∧ w.hasChannel 2 = false) ∧
      ∀ c : Nat, channelLifecycle.phaseAfter c w.events = some (w.hasChannel c) := by
  obtain ⟨w, hw, hc⟩ := exists_reachable (S := Nat) (C := Nat) (H := Nat) (fun _ => false)
    [.accept 1 true, .channelOpen 1 2, .channelOpen 1 3,
      .request 1 2 .shell (some 7) true, .poll ⟨fun _ => false, fun _ => 0, fun _ => false⟩,
      .cleanupClosedSessions fun _ => true]
    (P := fun w => w.running = true ∧ w.hasChannel 2 = false) (by decide)
  exact ⟨w, hc, hw.phaseAfter_channel⟩

/-- The server and its handler know the same, and no pointer leads nowhere. -/
structure Agrees (w : World S C H) : Prop where
  pointers : w.invalid = false
  index : ∀ s c, w.handler.channelIndex.find c = some s ↔ (w.handler.getChannelState s c).isSome
  sessions : w.running = true → ∀ s, s ∈ w.handler.sessions.keys ↔ s ∈ w.sessions
  terminal : w.running = true → ∀ s c ch, w.handler.getChannelState s c = some ch →
    ∃ d x, w.sessionData.find s = some d ∧ d.channels.find c = some x ∧
      x.hasPty = ch.hasPty ∧ x.winsize = ch.winsize

theorem Reachable.handler_agrees (h : Reachable managesChannelIo w) : w.Agrees := by
  have hw := h.valid
  refine ⟨hw.pointers, hw.managed.pointed, fun hrunning s => ?_, fun hrunning s c ch hch => ?_⟩
  · rw [hw.sessions_iff hrunning, and_iff_right List.not_mem_nil, hw.indexed.mem_iff]
  · obtain ⟨x, hx, hagree⟩ := hw.agree hrunning (s, c) ch hch
    obtain ⟨d, hd, hfind⟩ := Option.bind_eq_some_iff.mp hx
    exact ⟨d, x, hd, hfind, hagree⟩

/-- A window that was resized, for a channel with a shell. -/
theorem agrees_of_run : ∃ w : World Nat Nat Nat,
    (w.running = true ∧ (w.handler.getChannelState 1 2).isSome = true) ∧ w.Agrees := by
  obtain ⟨w, hw, hc⟩ := exists_reachable (S := Nat) (C := Nat) (H := Nat) (fun _ => false)
    [.accept 1 true, .channelOpen 1 2, .ptyRequest 1 2 ⟨24, 80, 0, 0⟩,
      .request 1 2 .shell (some 7) true, .ptyResize 1 2 ⟨30, 100, 0, 0⟩]
    (P := fun w => w.running = true ∧ (w.handler.getChannelState 1 2).isSome = true) (by decide)
  exact ⟨w, hc, hw.handler_agrees⟩

end SshServer.World

end Sihd.Ssh
