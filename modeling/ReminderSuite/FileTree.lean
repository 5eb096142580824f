import Mathlib.Data.List.Basic

/-! Paths in a tree of directories, files and symbolic links, and what the node that a path leads to
depends on. -/
namespace FileTree
variable {κ β : Type*}

inductive Step (κ : Type*) where
  | stay
  | up
  | into (name : κ)

/-- The target of a link starts at the topmost directory or at the one that the link is in. -/
inductive Node (κ β : Type*) where
  | file (content : β)
  | dir (entries : List (κ × Node κ β))
  | link (absolute : Bool) (target : List (Step κ))

/-- A node of a tree, with the directories above it from the nearest on -/
structure Place (κ β : Type*) where
  here : Node κ β
  above : List (Node κ β)

variable [DecidableEq κ]

namespace Place

/-- Only a directory can be walked through, and the topmost one is its own parent. -/
def step (p : Place κ β) (s : Step κ) : Option (Place κ β) :=
  match p.here with
  | .dir entries =>
    match s with
    | .stay => some p
    | .up => match p.above with
      | [] => some p
      | d :: ds => some ⟨d, ds⟩
    | .into name => (entries.lookup name).map fun n => ⟨n, p.here :: p.above⟩
  | _ => none

def base (p : Place κ β) (absolute : Bool) : Place κ β :=
  if absolute then ⟨p.above.getLast?.getD p.here, []⟩ else p

/-- Where a path leads, and how many more links may be followed then -/
def walkWith (follow : Place κ β → List (Step κ) → Option (Nat × Place κ β)) (left : Nat)
    (p : Place κ β) : List (Step κ) → Option (Nat × Place κ β)
  | [] => some (left, p)
  | s :: ss =>
    (p.step s).bind fun q =>
      match q.here with
      | .link absolute target => follow (p.base absolute) (target ++ ss)
      | _ => walkWith follow left q ss

def walk : Nat → Place κ β → List (Step κ) → Option (Nat × Place κ β)
  | 0, p => p.walkWith (fun _ _ => none) 0
  | left + 1, p => p.walkWith (walk left) (left + 1)

end Place

namespace Node

def descend (n : Node κ β) : List (Step κ) → Option (Node κ β)
  | [] => some n
  | s :: ss =>
    match n, s with
    | .dir _, .stay => n.descend ss
    | .dir entries, .into name => (entries.lookup name).bind fun m => m.descend ss
    | _, _ => none

inductive LinkFree : Node κ β → Prop
  | file (content : β) : LinkFree (file content)
  | dir {entries : List (κ × Node κ β)} (h : ∀ e ∈ entries, LinkFree e.2) : LinkFree (dir entries)

theorem LinkFree.lookup {entries : List (κ × Node κ β)} (h : (Node.dir entries).LinkFree) {name : κ}
    {n : Node κ β} (hn : entries.lookup name = some n) : n.LinkFree := by
  cases h with
  | dir hentries =>
    obtain ⟨front, back, rfl, -⟩ := List.lookup_eq_some_iff.mp hn
    exact hentries (name, n) (by simp)

end Node

namespace Place
variable {p : Place κ β} {s : Step κ} {ss : List (Step κ)} {left : Nat}

theorem walk_nil (left : Nat) (p : Place κ β) : p.walk left [] = some (left, p) := by
  cases left <;> rfl

theorem walk_cons (left : Nat) (p : Place κ β) (s : Step κ) (ss : List (Step κ)) :
    p.walk left (s :: ss) = (p.step s).bind fun q =>
      match q.here, left with
      | .link _ _, 0 => none
      | .link absolute target, left + 1 => (p.base absolute).walk left (target ++ ss)
      | _, left => q.walk left ss := by
  cases left with
  | zero =>
    simp only [walk, walkWith]
    congr 1
    funext q
    cases q.here <;> rfl
  | succ left =>
    simp only [walk, walkWith]
    congr 1
    funext q
    cases q.here <;> rfl

theorem walk_append (left : Nat) (p : Place κ β) (ss ts : List (Step κ)) :
    p.walk left (ss ++ ts) = (p.walk left ss).bind fun r => r.2.walk r.1 ts := by
  -- a link puts its target before what is left of the path, and one less may be followed then
  induction left generalizing p ss with
  | zero =>
    induction ss generalizing p with
    | nil => simp [walk_nil]
    | cons s ss ih =>
      rw [List.cons_append, walk_cons, walk_cons]
      cases p.step s with
      | none => rfl
      | some q =>
        simp only [Option.bind_some]
        cases q.here with
        | file content => exact ih q
        | dir entries => exact ih q
        | link absolute target => rfl
  | succ left ihleft =>
    induction ss generalizing p with
    | nil => simp [walk_nil]
    | cons s ss ih =>
      rw [List.cons_append, walk_cons, walk_cons]
      cases p.step s with
      | none => rfl
      | some q =>
        simp only [Option.bind_some]
        cases q.here with
        | file content => exact ih q
        | dir entries => exact ih q
        | link absolute target =>
          have htarget := ihleft (p.base absolute) (target ++ ss)
          rwa [List.append_assoc] at htarget

/-- A path that never climbs, in a tree without links, leads to a node of that tree, and depends on
nothing else. -/
theorem walk_here (hfree : p.here.LinkFree) (hss : ∀ s ∈ ss, s ≠ .up) :
    (p.walk left ss).map (fun r => r.2.here) = p.here.descend ss := by
  induction ss generalizing p with
  | nil => simp [walk_nil, Node.descend]
  | cons s ss ih =>
    obtain ⟨hs, hrest⟩ := List.forall_mem_cons.mp hss
    obtain ⟨here, above⟩ := p
    rw [walk_cons]
    cases here with
    | link absolute target => nomatch hfree
    | file content => simp [step, Node.descend]
    | dir entries =>
      cases s with
      | up => exact absurd rfl hs
      | stay => exact ih hfree hrest
      | into name =>
        simp only [step, Node.descend]
        cases hn : entries.lookup name with
        | none => rfl
        | some n =>
          have hbelow := hfree.lookup hn
          have hlater := ih (p := ⟨n, .dir entries :: above⟩) hbelow hrest
          cases hbelow with
          | file content => exact hlater
          | dir h => exact hlater

theorem walk_stay (left : Nat) (p : Place κ β) (hss : ss ≠ []) :
    (p.walk left [.stay]).bind (fun r => r.2.walk r.1 ss) = p.walk left ss := by
  obtain ⟨s, ss, rfl⟩ := List.exists_cons_of_ne_nil hss
  obtain ⟨here, above⟩ := p
  cases here with
  | dir entries =>
    rw [walk_cons]
    simp only [step, Option.bind_some, walk_nil]
  | file content => simp [walk_cons, step]
  | link absolute target => simp [walk_cons, step]

end Place
end FileTree
