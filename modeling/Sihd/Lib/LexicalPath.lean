import Mathlib.Data.List.Basic
import Mathlib.Data.List.Induction
import Mathlib.Tactic.Common

/-!
# Lexical paths

The names of a path are resolved from a directory, which is the list of the names
that lead to it: one name stands for the directory itself and another for its parent,
and the root is its own parent. `descend` resolves a path that stays below the
directory it starts from. `reduce` takes the parents out of a path without knowing
where it starts.
-/

namespace LexicalPath

variable {α : Type*} [DecidableEq α] (dot dotdot : α)

def enter (dir : List α) (name : α) : List α :=
  if name = dot then dir else if name = dotdot then dir.dropLast else dir ++ [name]

def resolve (dir names : List α) : List α := names.foldl (enter dot dotdot) dir

variable {dot dotdot}

@[simp] theorem resolve_nil (dir : List α) : resolve dot dotdot dir [] = dir := rfl

theorem resolve_cons (dir : List α) (name : α) (names : List α) :
    resolve dot dotdot dir (name :: names) =
      resolve dot dotdot (enter dot dotdot dir name) names := rfl

/-- A path that names no parent goes down. -/
theorem resolve_of_forall_ne {names : List α} (h : ∀ name ∈ names, name ≠ dotdot)
    (dir : List α) : resolve dot dotdot dir names = dir ++ names.filter (· ≠ dot) := by
  induction names generalizing dir with
  | nil => simp
  | cons name names ih =>
    rw [List.forall_mem_cons] at h
    rw [resolve_cons, ih h.2, enter]
    by_cases hdot : name = dot
    · simp [hdot]
    · simp [hdot, h.1]

/-! ### Reduction -/

section Reduce

variable (absolute : Bool) (dotdot : α)

/-- A name behind what is left of the names before it: a parent takes the last of them away, is
nothing at the root, and stays where there is none. -/
def reduceStep (stack : List α) (name : α) : List α :=
  if name = dotdot then
    match stack.getLast? with
    | none => if absolute then [] else [name]
    | some top => if top = dotdot then stack ++ [name] else stack.dropLast
  else stack ++ [name]

/-- What is left of names whose parents are taken away. -/
def reduce (names : List α) : List α := names.foldl (reduceStep absolute dotdot) []

/-- How far names lead above the place where they start, from some depth below it. -/
def climbsFrom (dotdot : α) : Nat → List α → Nat
  | _, [] => 0
  | depth, name :: names =>
      if name = dotdot then
        match depth with
        | 0 => climbsFrom dotdot 0 names + 1
        | depth + 1 => climbsFrom dotdot depth names
      else climbsFrom dotdot (depth + 1) names

def climbs (names : List α) : Nat := climbsFrom dotdot 0 names

/-- First the parents that stay, none of them behind a root. -/
def IsReduced (stack : List α) : Prop :=
  ∃ k rest, stack = List.replicate k dotdot ++ rest ∧ dotdot ∉ rest ∧ (absolute = true → k = 0)

end Reduce

section Reduce

variable {absolute : Bool} {stack names : List α}

theorem reduce_concat (names : List α) (name : α) : reduce absolute dotdot (names ++ [name]) =
    reduceStep absolute dotdot (reduce absolute dotdot names) name := List.foldl_concat _ _ _ _

theorem reduceStep_of_ne {name : α} (h : name ≠ dotdot) :
    reduceStep absolute dotdot stack name = stack ++ [name] := if_neg h

theorem reduceStep_nil :
    reduceStep absolute dotdot [] dotdot = if absolute then [] else [dotdot] := if_pos rfl

theorem reduceStep_concat (top : α) : reduceStep absolute dotdot (stack ++ [top]) dotdot =
    if top = dotdot then stack ++ [top, dotdot] else stack := by
  rw [reduceStep, if_pos rfl, List.getLast?_concat]
  dsimp only
  rw [List.append_assoc, List.dropLast_concat]
  rfl

theorem mem_reduceStep {name x : α} (h : x ∈ reduceStep absolute dotdot stack name) :
    x ∈ stack ∨ x = name := by
  by_cases hname : name = dotdot
  · subst hname
    rcases List.eq_nil_or_concat stack with rfl | ⟨stack, top, rfl⟩
    · rw [reduceStep_nil] at h
      split at h
      · cases h
      · exact .inr (List.mem_singleton.mp h)
    · rw [List.concat_eq_append] at h ⊢
      rw [reduceStep_concat] at h
      split at h
      · simpa [or_assoc] using h
      · exact .inl (List.mem_append_left _ h)
  · rw [reduceStep_of_ne hname, List.mem_append, List.mem_singleton] at h
    exact h

/-- Nothing is left but names that were there. -/
theorem mem_reduce {x : α} (h : x ∈ reduce absolute dotdot names) : x ∈ names := by
  induction names using List.reverseRecOn with
  | nil => cases h
  | append_singleton names name ih =>
    rw [reduce_concat] at h
    rw [List.mem_append, List.mem_singleton]
    exact (mem_reduceStep h).imp_left ih

theorem isReduced_reduceStep (h : IsReduced absolute dotdot stack) (name : α) :
    IsReduced absolute dotdot (reduceStep absolute dotdot stack name) := by
  obtain ⟨k, rest, rfl, hrest, hk⟩ := h
  by_cases hname : name = dotdot
  · subst hname
    rcases List.eq_nil_or_concat rest with rfl | ⟨rest, top, rfl⟩
    · cases k with
      | zero =>
        rw [List.replicate_zero, List.append_nil, reduceStep_nil]
        cases absolute with
        | false => exact ⟨1, [], rfl, List.not_mem_nil, nofun⟩
        | true => exact ⟨0, [], rfl, List.not_mem_nil, fun _ => rfl⟩
      | succ k =>
        rw [List.append_nil, List.replicate_succ', reduceStep_concat, if_pos rfl]
        refine ⟨k + 2, [], ?_, List.not_mem_nil, fun h => absurd (hk h) (Nat.succ_ne_zero k)⟩
        rw [List.append_nil, List.replicate_succ', List.replicate_succ', List.append_assoc]
        rfl
    · rw [List.concat_eq_append, List.mem_append, List.mem_singleton, not_or] at hrest
      rw [List.concat_eq_append, ← List.append_assoc, reduceStep_concat, if_neg (Ne.symm hrest.2)]
      exact ⟨k, rest, rfl, hrest.1, hk⟩
  · rw [reduceStep_of_ne hname]
    refine ⟨k, rest ++ [name], List.append_assoc _ _ _, ?_, hk⟩
    rw [List.mem_append, List.mem_singleton, not_or]
    exact ⟨hrest, Ne.symm hname⟩

theorem isReduced_reduce (names : List α) :
    IsReduced absolute dotdot (reduce absolute dotdot names) := by
  induction names using List.reverseRecOn with
  | nil => exact ⟨0, [], rfl, List.not_mem_nil, fun _ => rfl⟩
  | append_singleton names name ih =>
    rw [reduce_concat]
    exact isReduced_reduceStep ih name

omit [DecidableEq α] in
/-- Behind a root no parent is left. -/
theorem not_mem_of_isReduced (h : IsReduced true dotdot stack) : dotdot ∉ stack := by
  obtain ⟨k, rest, rfl, hrest, hk⟩ := h
  rwa [hk rfl, List.replicate_zero, List.nil_append]

theorem climbsFrom_cons_of_ne {name : α} (h : name ≠ dotdot) (depth : Nat) :
    climbsFrom dotdot depth (name :: names) = climbsFrom dotdot (depth + 1) names := by
  rw [climbsFrom.eq_def]
  exact if_neg h

theorem climbsFrom_zero_cons :
    climbsFrom dotdot 0 (dotdot :: names) = climbsFrom dotdot 0 names + 1 := by
  rw [climbsFrom.eq_def]
  exact if_pos rfl

theorem climbsFrom_succ_cons (depth : Nat) :
    climbsFrom dotdot (depth + 1) (dotdot :: names) = climbsFrom dotdot depth names := by
  rw [climbsFrom.eq_def]
  exact if_pos rfl

/-- The parents that are left are as many as names climb. -/
theorem foldl_reduceStep (k : Nat) {rest : List α} (hrest : dotdot ∉ rest) (names : List α) :
    ∃ rest', names.foldl (reduceStep false dotdot) (List.replicate k dotdot ++ rest) =
        List.replicate (k + climbsFrom dotdot rest.length names) dotdot ++ rest' ∧
      dotdot ∉ rest' := by
  induction names generalizing k rest with
  | nil => exact ⟨rest, rfl, hrest⟩
  | cons name names ih =>
    rw [List.foldl_cons]
    by_cases hname : name = dotdot
    · subst hname
      rcases List.eq_nil_or_concat rest with rfl | ⟨rest, top, rfl⟩
      · have hstep : reduceStep false name (List.replicate k name ++ []) name =
            List.replicate (k + 1) name ++ [] := by
          rw [List.append_nil, List.append_nil]
          cases k with
          | zero => exact reduceStep_nil
          | succ k =>
            rw [List.replicate_succ', reduceStep_concat, if_pos rfl, List.replicate_succ',
              List.replicate_succ', List.append_assoc]
            rfl
        rw [hstep]
        obtain ⟨rest', heq, hrest'⟩ := ih (k + 1) hrest
        refine ⟨rest', ?_, hrest'⟩
        rw [heq, List.length_nil, climbsFrom_zero_cons, Nat.add_assoc, Nat.add_comm 1]
      · rw [List.concat_eq_append, List.mem_append, List.mem_singleton, not_or] at hrest
        rw [List.concat_eq_append, ← List.append_assoc, reduceStep_concat,
          if_neg (Ne.symm hrest.2), List.length_append, List.length_singleton,
          climbsFrom_succ_cons]
        exact ih k hrest.1
    · rw [climbsFrom_cons_of_ne hname, reduceStep_of_ne hname, List.append_assoc]
      have hrest' : dotdot ∉ rest ++ [name] := by
        rw [List.mem_append, List.mem_singleton, not_or]
        exact ⟨hrest, Ne.symm hname⟩
      have ih := ih k hrest'
      rwa [List.length_append] at ih

theorem climbsFrom_of_not_mem (h : dotdot ∉ names) (depth : Nat) :
    climbsFrom dotdot depth names = 0 := by
  induction names generalizing depth with
  | nil => rfl
  | cons name names ih =>
    rw [List.mem_cons, not_or] at h
    rw [climbsFrom_cons_of_ne (Ne.symm h.1), ih h.2]

theorem climbs_replicate_append (k : Nat) {rest : List α} (h : dotdot ∉ rest) :
    climbs dotdot (List.replicate k dotdot ++ rest) = k := by
  induction k with
  | zero => exact climbsFrom_of_not_mem h 0
  | succ k ih =>
    rw [List.replicate_succ, List.cons_append, climbs, climbsFrom_zero_cons]
    exact congrArg (· + 1) ih

/-- A reduction climbs as far as the names do. -/
theorem climbs_reduce (names : List α) :
    climbs dotdot (reduce false dotdot names) = climbs dotdot names := by
  have hnil : dotdot ∉ ([] : List α) := List.not_mem_nil
  obtain ⟨rest, heq, hrest⟩ := foldl_reduceStep 0 hnil names
  rw [List.replicate_zero, List.nil_append, Nat.zero_add] at heq
  rw [reduce, heq, climbs_replicate_append _ hrest]
  rfl

end Reduce

end LexicalPath
