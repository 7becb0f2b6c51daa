import Sihd.Util.Splitter.Plain
import Sihd.Util.Str

/-!
# Named objects

A tree of objects with names, some of which are nodes and have children. A path
is looked up from an object, from its root or, with dots in front, from one of
its ancestors. Dots that go above the root start again at the object.
-/

namespace Sihd.Util

open Str

/-- `Named::separator`. -/
abbrev dot : UInt8 := 46

/-- Objects with the children of the nodes. A child has its node as its parent, and its own name. -/
structure NamedTree (ι : Type*) where
  name : ι → List UInt8
  isNode : ι → Bool
  cparent : ι → Option ι
  cgetChild : ι → List UInt8 → Option ι
  /-- How many ancestors an object has. -/
  depth : ι → Nat
  name_ne_nil : ∀ o, name o ≠ []
  dot_not_mem : ∀ o, dot ∉ name o
  slash_not_mem : ∀ o, slash ∉ name o
  cgetChild_eq_some_iff : ∀ o key x, cgetChild o key = some x ↔ cparent x = some o ∧ name x = key
  isNode_of_cparent : ∀ x o, cparent x = some o → isNode o = true
  depth_of_cparent : ∀ x o, cparent x = some o → depth x = depth o + 1
  depth_of_root : ∀ x, cparent x = none → depth x = 0

namespace NamedTree

variable {ι : Type*} (t : NamedTree ι)

/-! ### The lookup -/

/-- `dynamic_cast<const Node *>`. -/
def toNode (o : ι) : Option ι := if t.isNode o then some o else none

/-- The loop of `croot`, over as many parents as there are. -/
def rootFrom : Nat → ι → ι
  | 0, o => o
  | n + 1, o =>
      match t.cparent o with
      | none => o
      | some parent => rootFrom n parent

def croot (o : ι) : Option ι :=
  match t.cparent o with
  | none => t.toNode o
  | some parent => some (t.rootFrom (t.depth parent) parent)

/-- The loop of `cfind_from` over the names. -/
def findNames : Option ι → Option ι → List (List UInt8) → Option ι
  | child, _, [] => child
  | child, parent, name :: names =>
      let parent :=
        match child with
        | some child => t.toNode child
        | none => parent
      match parent with
      | none => none
      | some parent =>
          match t.cgetChild parent name with
          | none => none
          | some child => findNames (some child) (some parent) names

def cfindFrom (from? : Option ι) (path : List UInt8) : Option ι :=
  t.findNames from? none (split path [dot])

/-- The loop over the leading dots. -/
def climb (o : ι) : Option ι → List UInt8 → Option ι
  | current, [] => current
  | current, c :: path =>
      if c = dot then
        climb o (match current with
          | none => some o
          | some current => t.cparent current) path
      else current

def cfind (o : ι) (path : List UInt8) : Option ι :=
  if path.head? = some dot then t.cfindFrom (t.climb o none path) path
  else if path.head? = some slash then t.cfindFrom (t.croot o) (path.drop 1)
  else t.cfindFrom (some o) path

/-! ### What a path means -/

/-- The `k`-th ancestor of an object. -/
def ancestor (o : ι) : Nat → Option ι
  | 0 => some o
  | k + 1 => (ancestor o k).bind t.cparent

/-- The names between the dots of a path. -/
def pathNames (path : List UInt8) : List (List UInt8) :=
  (pieces [dot] path).filter fun name => name ≠ []

def leadingDots (path : List UInt8) : Nat := (path.takeWhile (· = dot)).length

/-- From an object, by the names of a child, of its child and so on. -/
inductive Resolves : ι → List (List UInt8) → ι → Prop
  | nil (o : ι) : Resolves o [] o
  | cons {o child x : ι} {names : List (List UInt8)} : t.isNode o = true →
      t.cparent child = some o → Resolves child names x → Resolves o (t.name child :: names) x

/-- What a path means for an object. -/
def Denotes (o : ι) (path : List UInt8) (x : ι) : Prop :=
  match leadingDots path with
  | k + 1 => ∃ a, t.ancestor o k = some a ∧ t.Resolves a (pathNames (path.drop (k + 1))) x
  | 0 =>
      if path.head? = some slash then
        ∃ r, t.ancestor o (t.depth o) = some r ∧ t.Resolves r (pathNames (path.drop 1)) x
      else t.Resolves o (pathNames path) x

/-- A path is found where it leads, and nowhere when it leads nowhere. -/
def FindsExactly (o : ι) (path : List UInt8) : Prop :=
  ∀ x, t.cfind o path = some x ↔ t.Denotes o path x

/-- The dots go two steps above the root or more, and the rest is there from where they come out;
or the path has no names and the object is its own root and no node. -/
def Misled (o : ι) (path : List UInt8) : Prop :=
  (∃ k a x, leadingDots path = k + 1 ∧ t.depth o + 1 < k ∧
      t.ancestor o (k % (t.depth o + 2)) = some a ∧
      t.Resolves a (pathNames (path.drop (k + 1))) x) ∨
    path.head? = some slash ∧ pathNames (path.drop 1) = [] ∧ t.cparent o = none ∧
      t.isNode o = false

/-- The names from below the root, by the number of ancestors. -/
def namesTo : Nat → ι → List (List UInt8)
  | 0, _ => []
  | n + 1, x =>
      match t.cparent x with
      | none => []
      | some parent => namesTo n parent ++ [t.name x]

/-- The path from the root, with a slash before it. -/
def rootPath (x : ι) : List UInt8 := slash :: [dot].intercalate (t.namesTo (t.depth x) x)

/-! ### Ancestors -/

variable {t} {o x a : ι}

theorem depth_ancestor {k : Nat} (h : t.ancestor o k = some a) : t.depth a + k = t.depth o := by
  induction k generalizing a with
  | zero =>
    cases h
    rfl
  | succ k ih =>
    obtain ⟨b, hb, hparent⟩ := Option.bind_eq_some_iff.mp h
    have hdepth := t.depth_of_cparent b a hparent
    have hk := ih hb
    omega

theorem exists_ancestor {k : Nat} (h : k ≤ t.depth o) : ∃ a, t.ancestor o k = some a := by
  induction k with
  | zero => exact ⟨o, rfl⟩
  | succ k ih =>
    obtain ⟨b, hb⟩ := ih (by omega)
    have hdepth := depth_ancestor hb
    cases hparent : t.cparent b with
    | none =>
      have hroot := t.depth_of_root b hparent
      omega
    | some a => exact ⟨a, by rw [ancestor, hb, Option.bind_some, hparent]⟩

theorem ancestor_eq_none {k : Nat} (h : t.depth o < k) : t.ancestor o k = none := by
  cases hk : t.ancestor o k with
  | none => rfl
  | some a =>
    have hdepth := depth_ancestor hk
    omega

theorem ancestor_succ (h : t.cparent o = some a) (k : Nat) :
    t.ancestor o (k + 1) = t.ancestor a k := by
  induction k with
  | zero => exact h
  | succ k ih => rw [ancestor, ih, ← ancestor]

theorem rootFrom_eq (o : ι) : t.ancestor o (t.depth o) = some (t.rootFrom (t.depth o) o) := by
  induction hn : t.depth o generalizing o with
  | zero => rfl
  | succ n ih =>
    cases hparent : t.cparent o with
    | none =>
      rw [t.depth_of_root o hparent] at hn
      cases hn
    | some parent =>
      have hdepth := t.depth_of_cparent o parent hparent
      rw [ancestor_succ hparent, ih parent (by omega), rootFrom, hparent]

/-- The object itself when it has no parent, and the last of its ancestors otherwise. -/
theorem croot_eq (h : t.cparent o = none → t.isNode o = true) :
    t.croot o = t.ancestor o (t.depth o) := by
  rw [croot]
  cases hparent : t.cparent o with
  | none =>
    rw [toNode, if_pos (h hparent), t.depth_of_root o hparent]
    rfl
  | some parent =>
    rw [t.depth_of_cparent o parent hparent, ancestor_succ hparent, rootFrom_eq]

theorem croot_eq_none (hparent : t.cparent o = none) (h : t.isNode o = false) :
    t.croot o = none := by
  rw [croot, hparent]
  dsimp only
  rw [toNode, h, if_neg Bool.false_ne_true]

/-! ### Names -/

theorem findNames_none (names : List (List UInt8)) : t.findNames none none names = none := by
  cases names <;> rfl

theorem findNames_eq_some_iff {names : List (List UInt8)} (parent : Option ι) :
    t.findNames (some o) parent names = some x ↔ t.Resolves o names x := by
  induction names generalizing o parent with
  | nil =>
    rw [findNames, Option.some_inj]
    constructor
    · rintro rfl
      exact .nil o
    · rintro ⟨⟩
      rfl
  | cons name names ih =>
    rw [findNames]
    constructor
    · intro h
      cases hnode : t.isNode o with
      | false =>
        rw [toNode, hnode, if_neg Bool.false_ne_true] at h
        cases h
      | true =>
        rw [toNode, hnode, if_pos rfl] at h
        dsimp only at h
        cases hchild : t.cgetChild o name with
        | none =>
          rw [hchild] at h
          cases h
        | some child =>
          rw [hchild] at h
          obtain ⟨hparent, rfl⟩ := (t.cgetChild_eq_some_iff o name child).mp hchild
          exact .cons hnode hparent ((ih _).mp h)
    · intro h
      cases h with
      | @cons _ child _ _ hnode hparent hrest =>
        have hchild := (t.cgetChild_eq_some_iff o (t.name child) child).mpr ⟨hparent, rfl⟩
        rw [toNode, hnode, if_pos rfl]
        dsimp only
        rw [hchild]
        exact (ih _).mpr hrest

theorem cfindFrom_eq_some_iff {from? : Option ι} {path : List UInt8} :
    t.cfindFrom from? path = some x ↔
      ∃ a, from? = some a ∧ t.Resolves a (pathNames path) x := by
  rw [cfindFrom, split_eq (List.cons_ne_nil _ _)]
  cases from? with
  | none =>
    rw [findNames_none]
    refine iff_of_false (by simp) ?_
    rintro ⟨a, ⟨⟩, -⟩
  | some a =>
    rw [findNames_eq_some_iff]
    constructor
    · exact fun h => ⟨a, rfl, h⟩
    · rintro ⟨_, ⟨⟩, h⟩
      exact h

/-! ### Leading dots -/

theorem leadingDots_cons_dot (path : List UInt8) :
    leadingDots (dot :: path) = leadingDots path + 1 := by
  rw [leadingDots, List.takeWhile_cons_of_pos (by decide), List.length_cons, leadingDots]

theorem leadingDots_cons_of_ne {c : UInt8} (h : c ≠ dot) (path : List UInt8) :
    leadingDots (c :: path) = 0 := by
  rw [leadingDots, List.takeWhile_cons_of_neg (by simpa using h)]
  rfl

theorem leadingDots_eq_zero_iff {path : List UInt8} :
    leadingDots path = 0 ↔ path.head? ≠ some dot := by
  cases path with
  | nil => exact iff_of_true rfl (by simp)
  | cons c path =>
    by_cases hc : c = dot
    · rw [hc, leadingDots_cons_dot]
      simp
    · rw [leadingDots_cons_of_ne hc]
      simpa using hc

theorem leadingDots_of_slash {path : List UInt8} (h : path.head? = some slash) :
    leadingDots path = 0 :=
  leadingDots_eq_zero_iff.mpr (h ▸ by decide)

/-- Dots in front make no names. -/
theorem pathNames_drop (path : List UInt8) :
    pathNames (path.drop (leadingDots path)) = pathNames path := by
  induction path with
  | nil => rfl
  | cons c path ih =>
    by_cases hc : c = dot
    · rw [hc, leadingDots_cons_dot, List.drop_succ_cons, ih, pathNames, pathNames,
        pieces_char_cons_self, List.filter_cons_of_neg (by simp)]
    · rw [leadingDots_cons_of_ne hc, List.drop_zero]

variable (t) in
/-- A dot: to the parent, and from nowhere to the object. -/
def next (o : ι) : Option ι → Option ι
  | none => some o
  | some current => t.cparent current

theorem climb_eq (o : ι) (current : Option ι) (path : List UInt8) :
    t.climb o current path = (t.next o)^[leadingDots path] current := by
  induction path generalizing current with
  | nil => rfl
  | cons c path ih =>
    rw [climb.eq_def]
    dsimp only
    by_cases hc : c = dot
    · rw [if_pos hc, hc, leadingDots_cons_dot, Function.iterate_succ_apply, ← ih]
      cases current <;> rfl
    · rw [if_neg hc, leadingDots_cons_of_ne hc]
      rfl

/-- The dots go round the ancestors and the place above the root. -/
theorem iterate_next (o : ι) (k : Nat) :
    (t.next o)^[k + 1] none = t.ancestor o (k % (t.depth o + 2)) := by
  induction k with
  | zero =>
    rw [Nat.zero_mod]
    rfl
  | succ k ih =>
    have hlt := Nat.mod_lt k (Nat.zero_lt_succ (t.depth o + 1))
    have hmod : (k + 1) % (t.depth o + 2) = (k % (t.depth o + 2) + 1) % (t.depth o + 2) := by
      rw [Nat.add_mod, Nat.mod_eq_of_lt (Nat.succ_lt_succ (Nat.succ_pos (t.depth o)))]
    rw [Function.iterate_succ_apply', ih, hmod]
    generalize k % (t.depth o + 2) = j at hlt
    rcases Nat.lt_or_ge (t.depth o) j with hj | hj
    · obtain rfl : j = t.depth o + 1 := by omega
      rw [ancestor_eq_none (Nat.lt_succ_self _), Nat.mod_self]
      rfl
    · obtain ⟨a, ha⟩ := exists_ancestor hj
      rw [Nat.mod_eq_of_lt (by omega), ancestor, ha]
      rfl

/-! ### Where a path is found -/

theorem cfind_dots {path : List UInt8} {k : Nat} (h : leadingDots path = k + 1) :
    t.cfind o path = some x ↔ ∃ a, t.ancestor o (k % (t.depth o + 2)) = some a ∧
      t.Resolves a (pathNames (path.drop (k + 1))) x := by
  have hhead : path.head? = some dot := by
    by_contra hne
    rw [leadingDots_eq_zero_iff.mpr hne] at h
    cases h
  rw [cfind, if_pos hhead, cfindFrom_eq_some_iff, climb_eq, h, iterate_next, ← pathNames_drop, h]

theorem denotes_dots {path : List UInt8} {k : Nat} (h : leadingDots path = k + 1) :
    t.Denotes o path x ↔ ∃ a, t.ancestor o k = some a ∧
      t.Resolves a (pathNames (path.drop (k + 1))) x := by
  rw [Denotes, h]

theorem findsExactly_dots {path : List UInt8} {k : Nat} (h : leadingDots path = k + 1) :
    t.FindsExactly o path ↔ ¬ t.Misled o path := by
  have hhead : path.head? ≠ some slash := by
    intro hslash
    rw [leadingDots_of_slash hslash] at h
    cases h
  rcases Nat.lt_or_ge (t.depth o + 1) k with hk | hk
  · have hnone : t.ancestor o k = none := ancestor_eq_none (by omega)
    constructor
    · rintro hfinds (⟨k', a, x, hk', -, ha, hx⟩ | ⟨hslash, -⟩)
      · obtain rfl : k' = k := by omega
        obtain ⟨b, hb, -⟩ := (denotes_dots h).mp ((hfinds x).mp ((cfind_dots h).mpr ⟨a, ha, hx⟩))
        rw [hnone] at hb
        cases hb
      · exact hhead hslash
    · intro hmisled x
      rw [cfind_dots h, denotes_dots h, hnone]
      refine iff_of_false ?_ ?_
      · rintro ⟨a, ha, hx⟩
        exact hmisled (.inl ⟨k, a, x, h, hk, ha, hx⟩)
      · rintro ⟨a, ⟨⟩, -⟩
  · refine iff_of_true (fun x => ?_) ?_
    · rw [cfind_dots h, denotes_dots h, Nat.mod_eq_of_lt (by omega)]
    · rintro (⟨k', a, x, hk', hlt, -⟩ | ⟨hslash, -⟩)
      · omega
      · exact hhead hslash

theorem denotes_slash {path : List UInt8} (h : path.head? = some slash) :
    t.Denotes o path x ↔ ∃ r, t.ancestor o (t.depth o) = some r ∧
      t.Resolves r (pathNames (path.drop 1)) x := by
  rw [Denotes, leadingDots_of_slash h]
  dsimp only
  rw [if_pos h]

theorem cfind_slash {path : List UInt8} (h : path.head? = some slash) :
    t.cfind o path = some x ↔ ∃ r, t.croot o = some r ∧
      t.Resolves r (pathNames (path.drop 1)) x := by
  rw [cfind, if_neg (h ▸ by decide), if_pos h, cfindFrom_eq_some_iff]

/-- Only a path without names leads from an object that is no node. -/
theorem eq_nil_of_resolves {names : List (List UInt8)} (hnode : t.isNode o = false)
    (h : t.Resolves o names x) : names = [] := by
  cases h with
  | nil => rfl
  | cons hnode' _ _ =>
    rw [hnode] at hnode'
    cases hnode'

theorem findsExactly_slash {path : List UInt8} (h : path.head? = some slash) :
    t.FindsExactly o path ↔ ¬ t.Misled o path := by
  have hzero := leadingDots_of_slash h
  by_cases hlone : t.cparent o = none ∧ t.isNode o = false
  · have hroot : t.ancestor o (t.depth o) = some o := by
      rw [t.depth_of_root o hlone.1]
      rfl
    have hnone : ∀ x, t.cfind o path ≠ some x := by
      intro x hx
      obtain ⟨r, hr, -⟩ := (cfind_slash h).mp hx
      rw [croot_eq_none hlone.1 hlone.2] at hr
      cases hr
    constructor
    · rintro hfinds (⟨k, -, -, hk, -⟩ | ⟨-, hnames, -⟩)
      · rw [hzero] at hk
        cases hk
      · refine hnone o ((hfinds o).mpr ((denotes_slash h).mpr ⟨o, hroot, ?_⟩))
        rw [hnames]
        exact .nil o
    · intro hmisled x
      refine iff_of_false (hnone x) fun hx => ?_
      obtain ⟨r, hr, hx⟩ := (denotes_slash h).mp hx
      rw [hroot, Option.some_inj] at hr
      subst hr
      exact hmisled (.inr ⟨h, eq_nil_of_resolves hlone.2 hx, hlone⟩)
  · refine iff_of_true (fun x => ?_) ?_
    · rw [cfind_slash h, denotes_slash h, croot_eq fun hparent => ?_]
      exact Bool.of_not_eq_false fun hnode => hlone ⟨hparent, hnode⟩
    · rintro (⟨k, -, -, hk, -⟩ | ⟨-, -, hcase⟩)
      · rw [hzero] at hk
        cases hk
      · exact hlone hcase

theorem findsExactly_plain {path : List UInt8} (hdot : path.head? ≠ some dot)
    (hslash : path.head? ≠ some slash) : t.FindsExactly o path ↔ ¬ t.Misled o path := by
  have hzero : leadingDots path = 0 := leadingDots_eq_zero_iff.mpr hdot
  refine iff_of_true (fun x => ?_) ?_
  · rw [cfind, if_neg hdot, if_neg hslash, cfindFrom_eq_some_iff, Denotes, hzero]
    dsimp only
    rw [if_neg hslash]
    constructor
    · rintro ⟨_, ⟨⟩, hx⟩
      exact hx
    · exact fun hx => ⟨o, rfl, hx⟩
  · rintro (⟨k, -, -, hk, -⟩ | ⟨hhead, -⟩)
    · rw [hzero] at hk
      cases hk
    · exact hslash hhead

/-! ### Paths from the root -/

theorem Resolves.concat {names : List (List UInt8)} {parent : ι} (h : t.Resolves a names parent)
    (hparent : t.cparent x = some parent) : t.Resolves a (names ++ [t.name x]) x := by
  induction h with
  | nil o => exact .cons (t.isNode_of_cparent x o hparent) hparent (.nil x)
  | cons hnode hchild _ ih => exact .cons hnode hchild (ih hparent)

theorem resolves_namesTo {n : Nat} (h : t.ancestor x n = some a) :
    t.Resolves a (t.namesTo n x) x := by
  induction n generalizing x with
  | zero =>
    obtain rfl := Option.some_inj.mp h
    exact .nil _
  | succ n ih =>
    cases hparent : t.cparent x with
    | none =>
      have hdepth := depth_ancestor h
      rw [t.depth_of_root x hparent] at hdepth
      omega
    | some parent =>
      rw [ancestor_succ hparent] at h
      rw [namesTo, hparent]
      exact (ih h).concat hparent

theorem mem_namesTo {n : Nat} {name : List UInt8} (h : name ∈ t.namesTo n x) :
    name ≠ [] ∧ dot ∉ name := by
  induction n generalizing x with
  | zero => cases h
  | succ n ih =>
    rw [namesTo] at h
    cases hparent : t.cparent x with
    | none =>
      rw [hparent] at h
      cases h
    | some parent =>
      rw [hparent] at h
      rcases List.mem_append.mp h with h | h
      · exact ih h
      · rw [List.mem_singleton.mp h]
        exact ⟨t.name_ne_nil x, t.dot_not_mem x⟩

theorem pathNames_rootPath (x : ι) :
    pathNames ((t.rootPath x).drop 1) = t.namesTo (t.depth x) x := by
  rw [pathNames, ← split_eq (List.cons_ne_nil _ _)]
  exact split_intercalate fun name hname => mem_namesTo hname

/-- A path is found where it leads unless its dots go too far above the root, or it asks an object
alone that is no node for its root; and from the root every object is found by its path. -/
theorem findsExactly_iff (t : NamedTree ι) :
    (∀ o path, t.FindsExactly o path ↔ ¬ t.Misled o path) ∧
      ∀ r x, t.ancestor x (t.depth x) = some r →
        (t.cfind r (t.rootPath x) = some x ↔ t.isNode r = true) := by
  refine ⟨fun o path => ?_, fun r x hroot => ?_⟩
  · by_cases hdot : path.head? = some dot
    · obtain ⟨k, hk⟩ := Nat.exists_eq_succ_of_ne_zero (leadingDots_eq_zero_iff.not_left.mpr hdot)
      exact findsExactly_dots hk
    · by_cases hslash : path.head? = some slash
      · exact findsExactly_slash hslash
      · exact findsExactly_plain hdot hslash
  · have hparent : t.cparent r = none := by
      cases hcparent : t.cparent r with
      | none => rfl
      | some parent =>
        have hdepth := depth_ancestor hroot
        have hdepth' := t.depth_of_cparent r parent hcparent
        omega
    rw [cfind_slash rfl, pathNames_rootPath]
    constructor
    · rintro ⟨b, hb, -⟩
      refine Bool.of_not_eq_false fun hnode => ?_
      rw [croot_eq_none hparent hnode] at hb
      cases hb
    · intro hnode
      refine ⟨r, ?_, resolves_namesTo hroot⟩
      rw [croot_eq fun _ => hnode, t.depth_of_root r hparent]
      rfl

/-- A node `r` with a child `x`. -/
def pairTree : NamedTree Bool where
  name x := if x then [120] else [114]
  isNode x := !x
  cparent x := if x then some false else none
  cgetChild o key := if o = false ∧ key = [120] then some true else none
  depth x := if x then 1 else 0
  name_ne_nil := by decide
  dot_not_mem := by decide
  slash_not_mem := by decide
  cgetChild_eq_some_iff o key x := by
    cases o <;> cases x <;> simp [eq_comm]
  isNode_of_cparent := by decide
  depth_of_cparent := by decide
  depth_of_root := by decide

/-- `...x` finds the child of a root, which has no ancestors. -/
theorem not_findsExactly_dots : ¬ pairTree.FindsExactly false [46, 46, 46, 120] := by
  have hdots : leadingDots [46, 46, 46, 120] = 2 + 1 := by decide
  rw [findsExactly_dots hdots, not_not]
  refine .inl ⟨2, false, true, hdots, by decide, rfl, ?_⟩
  have hnames : pathNames ([46, 46, 46, 120].drop (2 + 1)) = [pairTree.name true] := by
    change (pieces [dot] [120]).filter _ = _
    rw [pieces_char_of_not_mem (by decide)]
    rfl
  rw [hnames]
  exact .cons rfl rfl (.nil true)

end NamedTree

end Sihd.Util
