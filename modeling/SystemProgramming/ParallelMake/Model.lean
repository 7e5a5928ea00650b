import SystemProgramming.Lib.FiniteDigraph
import SystemProgramming.Lib.Runs

/-!
# The workers of parmake

`parmake.c`: the list of targets to process and the workers that scan it.  A worker
holds `mtx_1` while it scans and evaluates `get_target_status`; rule states are
written under `mtx_0`.  Every lock, file access, `system()` call and unlocked read of
a rule state is a step of its own; a section under `mtx_0` is one step.
-/

namespace SystemProgramming.ParallelMake

variable {Target W : Type*} [DecidableEq Target] [DecidableEq W]

/-- The parsed makefile: the dependency graph with the order in which the graph
library lists it, the rules' commands, and the empty target, which the parser adds for
the goals and on which no rule depends. -/
structure Makefile (Target : Type*) where
  g : FiniteDigraph Target
  L : GraphListing Target
  commands : Target → List String
  root : Target
  not_adj_root : ∀ target, ¬ g.Adj target root

namespace Makefile

variable (M : Makefile Target)

def neighbors (target : Target) : List Target := M.L.neighbors M.g target

omit [DecidableEq Target] in
@[simp] theorem mem_neighbors {target dep : Target} :
    dep ∈ M.neighbors target ↔ M.g.Adj target dep :=
  M.L.mem_neighbors M.g target dep

/-! ## The initial list of targets -/

/-- A loop that calls `DFS_topological_order` on every listed target. -/
def visitAll (dfs : Target → Finset Target → Option (Finset Target)) :
    List Target → Finset Target → Option (Finset Target)
  | [], order => some order
  | target :: targets, order => (dfs target order).bind (visitAll dfs targets)

/-- `DFS_topological_order`, with a bound on the depth of the recursion. -/
def DFSTopologicalOrder : ℕ → Target → Finset Target → Option (Finset Target)
  | 0, _, _ => none
  | fuel + 1, target, order =>
      if target = M.root then some order
      else if target ∈ order then some order
      else (visitAll (DFSTopologicalOrder fuel) (M.neighbors target) order).map (insert target)

/-- The set `order` that `parmake` builds before it starts the workers. -/
def topologicalOrder (fuel : ℕ) : Option (Finset Target) :=
  visitAll (M.DFSTopologicalOrder fuel) (M.L.vertices M.g) ∅

end Makefile

/-! ## Workers -/

/-- Modification times of the files that exist. -/
abbrev Disk (Target : Type*) := Target → Option ℤ

/-- Where a worker stands.  From `status` to `decided` it holds `mtx_1` and examines
the target at index `i` of `topo_order`. -/
inductive Pc (Target : Type*)
  /-- at the top of the `while` loop -/
  | lock
  /-- about to read the state of the rule at index `i` -/
  | status (i : ℕ)
  /-- about to call `access( target, F_OK )` -/
  | access (i : ℕ) (target : Target)
  /-- the target is a file; these dependencies are still to be compared -/
  | fileDep (i : ℕ) (target : Target) (deps : List Target)
  | statTarget (i : ℕ) (target sub : Target) (deps : List Target)
  | statSub (i : ℕ) (target : Target) (mtime : ℤ) (sub : Target) (deps : List Target)
  /-- the target is not a file; about to check its dependencies under `mtx_0` -/
  | ruleDeps (i : ℕ) (target : Target)
  /-- `mtx_0` is unlocked; about to read `sub_rule->state` for the return value -/
  | reread (i : ℕ) (target sub : Target)
  | decided (i : ℕ) (target : Target) (status : ℤ)
  /-- running the rule's commands, these ones still to come -/
  | exec (target : Target) (commands : List String)
  /-- about to store the outcome of the commands in the rule's state -/
  | finish (target : Target) (error : Bool)
  /-- about to settle a rule whose commands are not run -/
  | skip (target : Target)
  /-- in `pthread_cond_wait`, not signalled -/
  | asleep
  /-- signalled, not yet holding `mtx_1` again -/
  | woken
  /-- returned -/
  | done
  deriving DecidableEq

structure State (Target W : Type*) where
  topoOrder : List Target
  state : Target → ℤ
  disk : Disk Target
  mtx1 : Option W
  pc : W → Pc Target

namespace State

def setPc (s : State Target W) (w : W) (pc : Pc Target) : State Target W :=
  { s with pc := Function.update s.pc w pc }

/-- `pthread_cond_broadcast( &cv_1 )` -/
def broadcast (s : State Target W) : State Target W :=
  { s with pc := fun w ↦ if s.pc w = .asleep then .woken else s.pc w }

def setState (s : State Target W) (target : Target) (value : ℤ) : State Target W :=
  { s with state := Function.update s.state target value }

/-- One step of `get_target_status`, by the worker at this position. -/
def look (M : Makefile Target) (s : State Target W) : Pc Target → Option (Pc Target)
  | .status i =>
      match s.topoOrder[i]? with
      | none => none
      | some target => if s.state target ≠ 0 then some (.decided i target 3)
        else some (.access i target)
  | .access i target =>
      if (M.neighbors target).length > 0 then
        if s.disk target ≠ none then some (.fileDep i target (M.neighbors target))
        else some (.ruleDeps i target)
      else if s.disk target ≠ none then some (.decided i target 2)
      else some (.decided i target 1)
  | .fileDep i target [] => some (.decided i target 2)
  | .fileDep i target (sub :: deps) =>
      if s.disk sub ≠ none then some (.statTarget i target sub deps)
      else some (.decided i target 1)
  | .statTarget i target sub deps =>
      match s.disk target with
      | none => some (.decided i target (-1))
      | some mtime => some (.statSub i target mtime sub deps)
  | .statSub i target mtime sub deps =>
      match s.disk sub with
      | none => some (.decided i target (-1))
      | some subMtime =>
          if mtime < subMtime then some (.decided i target 1) else some (.fileDep i target deps)
  | .ruleDeps i target =>
      match (M.neighbors target).find? (fun dep ↦ s.state dep ≠ 1) with
      | some sub => some (.reread i target sub)
      | none => some (.decided i target 1)
  | .reread i target sub => some (.decided i target (s.state sub))
  | .decided i _ status =>
      -- the next round of the `for` loop
      if status = 1 ∨ status = 3 ∨ status = -1 ∨ status = 2 then none
      else if i + 1 = s.topoOrder.length then none
      else some (.status (i + 1))
  | _ => none

end State

/-- A step of one worker. -/
inductive Event (Target W : Type*)
  /-- lock `mtx_1`, and return when nothing is left -/
  | lock (w : W)
  /-- a step of the scan -/
  | look (w : W)
  /-- erase the examined target and unlock `mtx_1` -/
  | remove (w : W) (target : Target)
  /-- every target is waiting for another one: `pthread_cond_wait` -/
  | sleep (w : W)
  /-- a spurious wake-up -/
  | wake (w : W)
  /-- reacquire and release `mtx_1` after a wake-up -/
  | resume (w : W)
  /-- one `system()` call, the value it returns and the disk it leaves; what the command writes
  becomes visible at once, when the call ends -/
  | call (w : W) (target : Target) (command : String) (result : ℤ) (disk : Disk Target)
  /-- the last command succeeded -/
  | finish (w : W)
  /-- store a rule's state under `mtx_0` and broadcast -/
  | settle (w : W) (target : Target)

namespace State

/-- The branches of `worker_function` that erase the target. -/
def afterRemove (M : Makefile Target) (target : Target) (status : ℤ) : Option (Pc Target) :=
  if status = 1 then some (.exec target (M.commands target))
  else if status = 3 then some .lock
  else if status = -1 ∨ status = 2 then some (.skip target)
  else none

def step (M : Makefile Target) (s : State Target W) : Event Target W → Option (State Target W)
  | .lock w =>
      if s.pc w = .lock ∧ s.mtx1 = none then
        if s.topoOrder.length > 0 then some ({ s with mtx1 := some w }.setPc w (.status 0))
        else some (s.setPc w .done)
      else none
  | .look w => (s.look M (s.pc w)).map (s.setPc w)
  | .remove w target =>
      match s.pc w with
      | .decided i target' status =>
          if target' = target then
            (afterRemove M target status).map fun pc ↦
              { s with topoOrder := s.topoOrder.eraseIdx i, mtx1 := none }.setPc w pc
          else none
      | _ => none
  | .sleep w =>
      match s.pc w with
      | .decided i target status =>
          if afterRemove M target status = none ∧ i + 1 = s.topoOrder.length then
            some ({ s with mtx1 := none }.setPc w .asleep)
          else none
      | _ => none
  | .wake w => if s.pc w = .asleep then some (s.setPc w .woken) else none
  | .resume w => if s.pc w = .woken ∧ s.mtx1 = none then some (s.setPc w .lock) else none
  | .call w target command result disk =>
      match s.pc w with
      | .exec target' (command' :: commands) =>
          if target' = target ∧ command' = command then
            some ({ s with disk := disk }.setPc w
              (if result ≠ 0 then .finish target true else .exec target commands))
          else none
      | _ => none
  | .finish w =>
      match s.pc w with
      | .exec target [] => some (s.setPc w (.finish target false))
      | _ => none
  | .settle w target =>
      match s.pc w with
      | .finish target' error =>
          if target' = target then
            some (((s.setState target (if error then -1 else 1)).setPc w .lock).broadcast)
          else none
      | .skip target' =>
          if target' = target then
            some (((s.setState target (if s.state target ≠ -1 then 1 else s.state target)).setPc w
              .lock).broadcast)
          else none
      | _ => none

/-- The state in which `parmake` starts the workers: `topo_order` lists the set
`order`, in any order. -/
structure Initial (M : Makefile Target) (s : State Target W) : Prop where
  lists_order : ∃ fuel order, M.topologicalOrder fuel = some order ∧
    ∀ target, target ∈ s.topoOrder ↔ target ∈ order
  nodup : s.topoOrder.Nodup
  unlocked : s.mtx1 = none
  at_lock : ∀ w, s.pc w = .lock

end State

end SystemProgramming.ParallelMake
