import Sihd.Http.NavigatorWebSocket

/-!
# Runs of the web sockets

While a connection lives, what it has accepted is what was written to it and then what the queue has
of it. A message of the peer has caused one call for each of its pieces that is not empty.
-/

namespace Sihd.Http.NavigatorWebSocket

/-- The calls that a message has caused are those of its pieces. -/
def PeerMessage.Called (m : PeerMessage) : Prop :=
  m.calls = (m.pieces.filter (· ≠ [])).map fun piece => (m.binary, piece)

theorem PeerMessage.Called.receive {incoming : Option PeerMessage}
    (h : ∀ m, incoming = some m → m.Called) (piece : List UInt8) (binary : Bool) :
    (PeerMessage.receive incoming piece binary).Called := by
  have hbegun : (incoming.getD ⟨binary, [], []⟩).Called := by
    cases incoming with
    | none => rfl
    | some m => exact h m rfl
  rw [Called] at hbegun ⊢
  dsimp only [PeerMessage.receive]
  rw [List.filter_append, List.map_append, ← hbegun]
  by_cases hpiece : piece = []
  · simp [hpiece]
  · simp [hpiece]

/-- Where one piece is not empty, it is the whole message. -/
theorem PeerMessage.Called.calls_eq {m : PeerMessage} (h : m.Called)
    (hone : (m.pieces.filter (· ≠ [])).length = 1) :
    m.calls = [(m.binary, m.pieces.flatten)] := by
  obtain ⟨piece, hpiece⟩ := List.length_eq_one_iff.mp hone
  have hflatten : m.pieces.flatten = piece := by
    rw [← List.flatten_filter_ne_nil, hpiece, List.flatten_singleton]
  rw [h, hpiece, hflatten, List.map_singleton]

theorem pieces_receive (k : Connection) (piece : List UInt8) (binary : Bool) :
    (PeerMessage.receive k.incoming piece binary).pieces = k.pieces ++ [piece] := by
  cases hincoming : k.incoming with
  | none => simp [PeerMessage.receive, Connection.pieces, hincoming]
  | some m => simp [PeerMessage.receive, Connection.pieces, hincoming]

/-- The library calls back for the connection, or will. -/
def Stage.lives : Stage → Bool
  | .initiated | .established => true
  | .failed | .closed => false

namespace World

/-- The messages of the queue that the connection has accepted. -/
def queued (w : World) (c : Nat) : List Message := w.sendQueue.filter fun m => m.connection = c

/-- What a connection keeps, with what the queue has of it. -/
structure Keeps (k : Connection) (queued : List Message) : Prop where
  accepted : k.stage.lives = true → k.accepted = k.written ++ queued
  written : k.written <+: k.accepted
  incoming : ∀ m, k.incoming = some m → m.Called
  received : ∀ m ∈ k.received, m.calls = [(m.binary, m.pieces.flatten)]

def Inv (w : World) : Prop := ∀ c, Keeps (w.connections c) (w.queued c)

theorem inv_init : init.Inv := fun _ =>
  ⟨fun _ => rfl, List.prefix_rfl, nofun, nofun⟩

variable {w w' : World} {c : Nat}

/-- A step that changes one connection, and of the queue the messages of this one. -/
theorem Inv.update (h : w.Inv) {k : Connection}
    (hconnections : w'.connections = Function.update w.connections c k)
    (hk : Keeps k (w'.queued c)) (hother : ∀ c', c' ≠ c → w'.queued c' = w.queued c') :
    w'.Inv := by
  intro c'
  rw [hconnections]
  by_cases hc : c' = c
  · rw [hc, Function.update_self]
    exact hk
  · rw [Function.update_of_ne hc, hother c' hc]
    exact h c'

theorem Inv.setConnection (h : w.Inv) {k : Connection} (hk : Keeps k (w.queued c)) :
    (w.setConnection c k).Inv :=
  h.update rfl hk fun _ _ => rfl

/-- Fields that the invariant does not read. -/
theorem Inv.of_eq (h : w.Inv) (hconnections : w'.connections = w.connections)
    (hqueue : w'.sendQueue = w.sendQueue) : w'.Inv := by
  intro c
  rw [hconnections, queued, hqueue]
  exact h c

/-- A connection goes on in another stage, and lives no longer than before. -/
theorem Keeps.withStage {k : Connection} {queued : List Message} (h : Keeps k queued)
    {stage : Stage} (hlives : stage.lives = true → k.stage.lives = true) :
    Keeps { k with stage := stage } queued :=
  ⟨fun hstage => h.accepted (hlives hstage), h.written, h.incoming, h.received⟩

theorem Inv.withStage (h : w.Inv) (stage : Stage)
    (hlives : stage.lives = true → (w.connections c).stage.lives = true) :
    (w.setConnection c { w.connections c with stage := stage }).Inv :=
  h.setConnection ((h c).withStage hlives)

/-! ### Calls -/

theorem Inv.send (h : w.Inv) (data : List UInt8) (binary : Bool) : (w.send data binary).Inv := by
  rw [World.send]
  split
  · rename_i c _ _
    refine h.update rfl ?_ fun c' hc => ?_
    · have hqueued : (w.sendQueue ++ [(⟨data, binary, c⟩ : Message)]).filter
          (fun m => m.connection = c) = w.queued c ++ [⟨data, binary, c⟩] := by
        simp [queued, List.filter_append]
      change Keeps _ (List.filter _ (w.sendQueue ++ [_]))
      rw [hqueued]
      refine ⟨fun hlives => ?_, ?_, (h c).incoming, (h c).received⟩
      · change (w.connections c).accepted ++ _ = _
        rw [(h c).accepted hlives, List.append_assoc]
      · exact (h c).written.trans (List.prefix_append _ _)
    · change (w.sendQueue ++ [_]).filter _ = _
      simp [queued, List.filter_append, Ne.symm hc]
  · exact h.of_eq rfl rfl

theorem Inv.connect (h : w.Inv) (attempt : Attempt) : (w.connect attempt).Inv := by
  cases attempt with
  | noContext => exact h.of_eq rfl rfl
  | refused called => exact h.of_eq rfl rfl
  | initiated => exact h.of_eq rfl rfl

theorem Inv.destroyed (h : w.Inv) : w.destroyed.Inv := by
  rw [World.destroyed]
  cases w.context with
  | none => exact h.of_eq rfl rfl
  | some c => exact (h.withStage (c := c) .closed nofun).of_eq rfl rfl

theorem Inv.next (h : w.Inv) (hstep : w.next = some w') : w'.Inv := by
  rw [World.next] at hstep
  split at hstep
  · cases hstep
  · cases hstep
    split
    · exact h.of_eq rfl rfl
    · exact h.of_eq rfl rfl
  · obtain ⟨-, heq⟩ := Option.ite_none_right_eq_some.mp hstep
    cases heq
    exact h.of_eq rfl rfl
  · cases hstep
    exact h.destroyed

theorem Inv.service (h : w.Inv) (hstep : w.service = some w') : w'.Inv := by
  rw [World.service] at hstep
  split at hstep
  · cases hstep
  · cases hstep
    exact h.of_eq rfl rfl
  · cases hstep
    exact h.of_eq rfl rfl

/-! ### Callbacks -/

theorem Keeps.receive {k : Connection} {queued : List Message} (h : Keeps k queued)
    {piece : List UInt8} {binary final : Bool}
    (hone : final = true → ((k.pieces ++ [piece]).filter (· ≠ [])).length = 1) :
    Keeps (k.receive piece binary final) queued := by
  have hcalled := PeerMessage.Called.receive h.incoming piece binary
  rw [Connection.receive]
  cases final with
  | false =>
    refine ⟨h.accepted, h.written, fun m hm => ?_, h.received⟩
    obtain rfl := Option.some.inj hm
    exact hcalled
  | true =>
    refine ⟨h.accepted, h.written, nofun, fun m hm => ?_⟩
    obtain hm | hm := List.mem_append.mp hm
    · exact h.received m hm
    · rw [List.mem_singleton.mp hm]
      refine hcalled.calls_eq ?_
      rw [pieces_receive]
      exact hone rfl

/-- The front of the queue is a message of the connection: what is accepted goes on with it. -/
theorem Inv.writeable (h : w.Inv) {ret : Bool} (hstage : (w.connections c).stage = .established)
    (hfront : ∀ m, w.sendQueue.head? = some m → m.connection = c) : (w.writeable c ret).Inv := by
  rw [World.writeable]
  split
  · refine h.setConnection ?_
    exact ⟨(h c).accepted, (h c).written, (h c).incoming, (h c).received⟩
  · rename_i m queue hqueue
    have hm : m.connection = c := hfront m (by rw [hqueue]; rfl)
    have haccepted := (h c).accepted (by rw [hstage]; rfl)
    rw [queued, hqueue] at haccepted
    simp only [List.filter_cons, hm, decide_true, if_true] at haccepted
    refine h.update rfl ?_ fun c' hc => ?_
    · refine ⟨fun hlives => ?_, ?_, (h c).incoming, (h c).received⟩
      · cases ret with
        | false => cases hlives
        | true =>
          change (w.connections c).accepted = (w.connections c).written ++ [m] ++ _
          rw [haccepted, List.append_assoc]
          rfl
      · cases ret with
        | false => exact (h c).written
        | true =>
          change (w.connections c).written ++ [m] <+: (w.connections c).accepted
          refine ⟨queue.filter fun m => m.connection = c, ?_⟩
          rw [haccepted, List.append_assoc]
          rfl
    · change queue.filter _ = _
      rw [queued, hqueue, List.filter_cons_of_neg]
      rw [hm, decide_eq_true_iff]
      exact Ne.symm hc

theorem Inv.callback (h : w.Inv) {reason : Reason} (hthread : w.thread = .serving (some c))
    (hin : w.InOrder (.callback reason)) (hstep : w.callback c reason = some w') : w'.Inv := by
  unfold World.callback at hstep
  split at hstep
  · rename_i hstage
    cases hstep
    exact (h.withStage (c := c) .established fun _ => by rw [hstage]; rfl).of_eq rfl rfl
  · cases hstep
    exact (h.withStage (c := c) .closed nofun).of_eq rfl rfl
  · rename_i piece binary final _ _
    cases hstep
    refine h.setConnection ((h c).receive ?_)
    rintro rfl
    exact hin c hthread
  · rename_i hstage
    obtain ⟨-, heq⟩ := Option.ite_none_right_eq_some.mp hstep
    cases heq
    exact h.writeable hstage fun m => hin c m hthread
  · cases hstep
    exact h
  · cases hstep
    exact (h.withStage (c := c) .closed nofun).of_eq rfl rfl
  · cases hstep
    exact (h.withStage (c := c) .closed nofun).of_eq rfl rfl
  · cases hstep

theorem Inv.step (h : w.Inv) {m : Move} (hin : w.InOrder m) (hstep : w.step m = some w') :
    w'.Inv := by
  cases m with
  | connect attempt =>
    obtain ⟨-, heq⟩ := Option.ite_none_right_eq_some.mp hstep
    cases heq
    exact h.connect attempt
  | close =>
    obtain ⟨-, heq⟩ := Option.ite_none_right_eq_some.mp hstep
    cases heq
    exact h.of_eq rfl rfl
  | send data binary =>
    cases hstep
    exact h.send data binary
  | next => exact h.next hstep
  | service => exact h.service hstep
  | callback reason =>
    rw [World.step] at hstep
    split at hstep
    · rename_i hthread
      exact h.callback hthread hin hstep
    · cases hstep

/-- In every run whose callbacks are in order, the messages are whole. -/
theorem isWhole_of_reachable {w : World}
    (h : Transition.Reaches step InOrder (· = init) w) : w.IsWhole := by
  have hinv : w.Inv := h.invariant (fun w hw => hw ▸ inv_init) fun w m w' hw hin hstep =>
    hw.step hin hstep
  exact fun c => ⟨(hinv c).written, (hinv c).received⟩

/-! ### One connection and two -/

/-- The test of `InOrder` for a move. -/
def inOrder (w : World) : Move → Bool
  | .callback (.writeable _) =>
    match w.thread, w.sendQueue with
    | .serving (some c), m :: _ => m.connection = c
    | _, _ => true
  | .callback (.receive piece _ true) =>
    match w.thread with
    | .serving (some c) => (((w.connections c).pieces ++ [piece]).filter (· ≠ [])).length = 1
    | _ => true
  | _ => true

theorem inOrder_of_test {w : World} {m : Move} (h : w.inOrder m = true) : w.InOrder m := by
  unfold inOrder at h
  split at h
  · intro c m hthread hfront
    rw [hthread] at h
    cases hqueue : w.sendQueue with
    | nil =>
      rw [hqueue] at hfront
      cases hfront
    | cons m' queue =>
      rw [hqueue] at hfront h
      obtain rfl := Option.some.inj hfront
      exact of_decide_eq_true h
  · intro c hthread
    rw [hthread] at h
    exact of_decide_eq_true h
  · rename_i hwriteable hreceive
    unfold InOrder
    split
    · exact absurd rfl (hwriteable _)
    · exact absurd rfl (hreceive _ _)
    · trivial

/-- A message each way, on one connection. -/
theorem isWhole_exchange : ∃ w : World, (w.connections 0).written = [⟨[104, 105], false, 0⟩] ∧
    (w.connections 0).received.length = 1 ∧ w.IsWhole := by
  obtain ⟨w, hw, hwritten, hreceived⟩ := @Transition.Reaches.exists_of_runs_guarded _ _ step
    (· = init) inOrder
    [.connect .initiated, .service, .callback .established, .next, .send [104, 105] false,
      .callback (.writeable true), .callback (.receive [121, 111] true true)] _
    (fun w => (w.connections 0).written = [⟨[104, 105], false, 0⟩] ∧
      (w.connections 0).received.length = 1) _ rfl (by decide +kernel)
  exact ⟨w, hwritten, hreceived, isWhole_of_reachable (hw.mono fun _ _ => inOrder_of_test)⟩

/-- The peer closes the first connection before it can be written to. The second one is written
its message. -/
theorem not_isWhole_reconnect : ¬ ∀ w : World,
    Transition.Reaches step Transition.unrestricted (· = init) w → w.IsWhole := by
  intro h
  obtain ⟨w, hw, hwritten, haccepted⟩ := @Transition.Reaches.exists_of_runs _ _ step
    (· = init)
    [.connect .initiated, .service, .callback .established, .next, .send [104] false,
      .callback .closed, .service, .close, .next, .next, .connect .initiated, .service,
      .callback .established, .next, .send [105] false, .callback (.writeable true)] _
    (fun w => (w.connections 1).written = [⟨[104], false, 0⟩] ∧
      (w.connections 1).accepted = [⟨[105], false, 1⟩]) _ rfl (by decide +kernel)
  have hwhole := (h w hw 1).1
  rw [hwritten, haccepted] at hwhole
  exact absurd hwhole (by decide)

end World

end Sihd.Http.NavigatorWebSocket
