import Mathlib.Logic.Function.Basic
import Mathlib.Data.Option.Basic

/-!
# Child processes

The children of a process, the events of their lives and the call of `waitid` that
reports them. A child stays one until a wait collects its end.
-/

namespace ChildProcess

/-- The option word of `waitid`. -/
abbrev Options := BitVec 32

def wnohang : Options := 1#32
def wstopped : Options := 2#32
def wexited : Options := 4#32
def wcontinued : Options := 8#32
def wnowait : Options := 0x1000000#32

/-- The older name of `WSTOPPED`. -/
def wuntraced : Options := wstopped

def Options.asks (options flag : Options) : Bool := options &&& flag != 0#32

def cldExited : Int := 1
def cldKilled : Int := 2
def cldDumped : Int := 3
def cldStopped : Int := 5
def cldContinued : Int := 6

/-- What `waitid` writes of a `siginfo_t`. -/
structure SigInfo where
  code : Int
  status : Int
  deriving DecidableEq

inductive Errno where
  | echild
  | einval
  | eintr
  deriving DecidableEq

/-- How a child ended. -/
inductive End where
  | exited (status : Int)
  | killed (sig : Int)
  | dumped (sig : Int)
  deriving DecidableEq

def End.info : End → SigInfo
  | .exited status => ⟨cldExited, status⟩
  | .killed sig => ⟨cldKilled, sig⟩
  | .dumped sig => ⟨cldDumped, sig⟩

inductive Life where
  | running
  | stopped (sig : Int)
  | ended (e : End)
  deriving DecidableEq

/-- A child that was not waited for yet; `reported` says that its last stop or
continuation was. -/
structure Child where
  life : Life
  reported : Bool
  deriving DecidableEq

inductive Event where
  | stopped (sig : Int)
  | continued
  | ended (e : End)
  deriving DecidableEq

namespace Child

def create : Child := ⟨.running, true⟩

/-- `none` when the event cannot happen to the child. -/
def next (c : Child) (event : Event) : Option Child :=
  match c.life, event with
  | .ended _, _ => none
  | .running, .stopped sig => some ⟨.stopped sig, false⟩
  | .stopped _, .continued => some ⟨.running, false⟩
  | _, .ended e => some ⟨.ended e, false⟩
  | .running, .continued => none
  | .stopped _, .stopped _ => none

/-- What a wait with these options finds to report of the child. -/
def report (c : Child) (options : Options) : Option SigInfo :=
  match c.life with
  | .running =>
      if !c.reported && options.asks wcontinued then some ⟨cldContinued, 18⟩ else none
  | .stopped sig =>
      if !c.reported && options.asks wstopped then some ⟨cldStopped, sig⟩ else none
  | .ended e => if options.asks wexited then some e.info else none

/-- The child once its state was reported: an ended one is reaped. -/
def collected (c : Child) : Option Child :=
  match c.life with
  | .ended _ => none
  | life => some ⟨life, true⟩

end Child

/-- The children by their process id. -/
abbrev Children := Int → Option Child

/-- The call for one process id; `none` as long as it blocks. -/
def waitid (children : Children) (pid : Int) (options : Options) (interrupted : Bool) :
    Option (Except Errno SigInfo × Children) :=
  if options &&& (wexited ||| wstopped ||| wcontinued) = 0#32 then
    some (.error .einval, children)
  else match children pid with
    | none => some (.error .echild, children)
    | some child =>
      match child.report options with
      | some info =>
        some (.ok info, if options.asks wnowait then children
          else Function.update children pid child.collected)
      | none =>
        if options.asks wnohang then some (.ok ⟨0, 0⟩, children)
        else if interrupted then some (.error .eintr, children)
        else none

/-- A wait with these options reaps the child, which ended in this way. -/
structure Reaps (children : Children) (pid : Int) (options : Options) (e : End) : Prop where
  ended : ∃ reported, children pid = some ⟨.ended e, reported⟩
  asked : options.asks wexited = true
  keeps : options.asks wnowait = false

/-- What a call of `waitid` can do. -/
inductive Waited (children : Children) (pid : Int) (options : Options) :
    Except Errno SigInfo → Children → Prop
  | failed (errno : Errno) (h : errno = .echild → children pid = none) :
      Waited children pid options (.error errno) children
  | nothing : Waited children pid options (.ok ⟨0, 0⟩) children
  | left (info : SigInfo) (h : options.asks wnowait = true) :
      Waited children pid options (.ok info) children
  | reported (child child' : Child) (info : SigInfo) (h : children pid = some child)
      (hcode : info.code ≠ cldExited ∧ info.code ≠ cldKilled) :
      Waited children pid options (.ok info) (Function.update children pid (some child'))
  | reaped (e : End) (h : Reaps children pid options e) :
      Waited children pid options (.ok e.info) (Function.update children pid none)

variable {children children' : Children} {pid : Int} {options : Options} {interrupted : Bool}
  {ret : Except Errno SigInfo} {e : End}

theorem waited_of_waitid (h : waitid children pid options interrupted = some (ret, children')) :
    Waited children pid options ret children' := by
  rw [waitid] at h
  split at h
  · cases h
    exact .failed .einval (by simp)
  · split at h
    · rename_i hnone
      cases h
      exact .failed .echild fun _ => hnone
    · rename_i child hchild
      split at h
      · rename_i info hinfo
        cases h
        split
        · rename_i hnowait
          exact .left info hnowait
        · rename_i hnowait
          obtain ⟨life, reported⟩ := child
          cases life with
          | running =>
            obtain ⟨-, hinfo⟩ := Option.ite_none_right_eq_some.mp hinfo
            cases hinfo
            exact .reported _ _ _ hchild ⟨by simp [cldContinued, cldExited],
              by simp [cldContinued, cldKilled]⟩
          | stopped sig =>
            obtain ⟨-, hinfo⟩ := Option.ite_none_right_eq_some.mp hinfo
            cases hinfo
            exact .reported _ _ _ hchild ⟨by simp [cldStopped, cldExited],
              by simp [cldStopped, cldKilled]⟩
          | ended e =>
            obtain ⟨hasked, hinfo⟩ := Option.ite_none_right_eq_some.mp hinfo
            cases hinfo
            exact .reaped e ⟨⟨reported, hchild⟩, hasked, by simpa using hnowait⟩
      · split at h
        · cases h
          exact .nothing
        · split at h
          · cases h
            exact .failed .eintr (by simp)
          · cases h

/-- A wait changes no child but the one that it reports. -/
theorem children_of_waitid (h : waitid children pid options interrupted = some (ret, children')) :
    children' = children ∨ ∃ child, children pid = some child ∧
      children' = Function.update children pid child.collected := by
  rw [waitid] at h
  split at h
  · cases h
    exact .inl rfl
  · split at h
    · cases h
      exact .inl rfl
    · next child hchild =>
      split at h
      · cases h
        split
        · exact .inl rfl
        · exact .inr ⟨child, hchild, rfl⟩
      · split at h
        · cases h
          exact .inl rfl
        · split at h
          · cases h
            exact .inl rfl
          · cases h

/-- What a wait that does not block says of a child that has not ended. -/
theorem ok_of_waitid {child : Child} (hchild : children pid = some child)
    (hlife : ∀ e, child.life ≠ .ended e)
    (h : waitid children pid (wexited ||| wstopped ||| wcontinued ||| wnohang) interrupted =
      some (ret, children')) :
    ∃ info, ret = .ok info ∧ info.code ≠ cldExited ∧ info.code ≠ cldKilled := by
  rw [waitid, if_neg (by decide), hchild] at h
  dsimp only at h
  cases hreport : child.report (wexited ||| wstopped ||| wcontinued ||| wnohang) with
  | none =>
    rw [hreport] at h
    dsimp only at h
    rw [if_pos (by decide)] at h
    cases h
    exact ⟨⟨0, 0⟩, rfl, by decide, by decide⟩
  | some info =>
    rw [hreport] at h
    cases h
    refine ⟨info, rfl, ?_⟩
    rw [Child.report] at hreport
    cases hcase : child.life with
    | running =>
      rw [hcase] at hreport
      obtain ⟨-, hinfo⟩ := Option.ite_none_right_eq_some.mp hreport
      cases hinfo
      exact ⟨by simp [cldContinued, cldExited], by simp [cldContinued, cldKilled]⟩
    | stopped sig =>
      rw [hcase] at hreport
      obtain ⟨-, hinfo⟩ := Option.ite_none_right_eq_some.mp hreport
      cases hinfo
      exact ⟨by simp [cldStopped, cldExited], by simp [cldStopped, cldKilled]⟩
    | ended e => exact absurd hcase (hlife e)

/-- A wait that reaps the child reports how it ended. -/
theorem Reaps.waitid_eq (h : Reaps children pid options e) :
    waitid children pid options interrupted =
      some (.ok e.info, Function.update children pid none) := by
  obtain ⟨⟨reported, hchild⟩, hasked, hkeeps⟩ := h
  have hevents : ¬ options &&& (wexited ||| wstopped ||| wcontinued) = 0#32 := by
    intro hzero
    rw [Options.asks, bne_iff_ne] at hasked
    refine hasked ?_
    have hwexited : wexited = (wexited ||| wstopped ||| wcontinued) &&& wexited := by decide
    rw [hwexited, ← BitVec.and_assoc, hzero, BitVec.zero_and]
  have hreport : Child.report ⟨.ended e, reported⟩ options = some e.info := if_pos hasked
  rw [waitid, if_neg hevents, hchild]
  dsimp only
  rw [hreport]
  dsimp only
  rw [hkeeps, if_neg Bool.false_ne_true]
  rfl

/-- A wait makes no new children. -/
theorem Waited.child (h : Waited children pid options ret children') {q : Int}
    (hq : children' q ≠ none) : children q ≠ none := by
  cases h with
  | failed _ _ => exact hq
  | nothing => exact hq
  | left _ _ => exact hq
  | reported child child' _ hchild _ =>
    by_cases hqpid : q = pid
    · simp [hqpid, hchild]
    · rwa [Function.update_of_ne hqpid] at hq
  | reaped e _ =>
    have hqpid : q ≠ pid := by
      rintro rfl
      exact hq (Function.update_self ..)
    rwa [Function.update_of_ne hqpid] at hq

end ChildProcess
