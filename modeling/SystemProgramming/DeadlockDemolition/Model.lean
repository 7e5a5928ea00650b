import SystemProgramming.Lib.FiniteDigraph
import SystemProgramming.Lib.Runs

/-!
# The deadlock-refusing mutexes of libdrm

`libdrm.c`: a resource graph `g` over drms and threads, guarded by one global
mutex, and the cycle search that `drm_wait` consults before it blocks.  The part
of a call between locking and unlocking the global mutex is one step.
-/

namespace SystemProgramming.DeadlockDemolition

variable {V : Type*} [DecidableEq V]

/-! ## The cycle search -/

/-- The loop of `DFS` over the neighbors of a node.  `dfs` is the recursive call;
`none` stands for a call that has not returned. -/
def visitNeighbors (dfs : V → Finset V → Finset V → Option (Bool × Finset V × Finset V)) :
    List V → Finset V → Finset V → Option (Bool × Finset V × Finset V)
  | [], visited, stacked => some (false, visited, stacked)
  | neighbor :: neighbors, visited, stacked =>
      if neighbor ∉ visited then
        match dfs neighbor visited stacked with
        | none => none
        | some (true, visited, stacked) => some (true, visited, stacked)
        | some (false, visited, stacked) => visitNeighbors dfs neighbors visited stacked
      else if neighbor ∈ stacked then some (true, visited, stacked)
      else visitNeighbors dfs neighbors visited stacked

/-- `DFS`, with the two dictionaries as the sets of their keys and a bound on the
depth of the recursion. -/
def DFS (L : GraphListing V) (g : FiniteDigraph V) :
    ℕ → V → Finset V → Finset V → Option (Bool × Finset V × Finset V)
  | 0, _, _, _ => none
  | fuel + 1, node, visited, stacked =>
      match visitNeighbors (DFS L g fuel) (L.neighbors g node)
          (insert node visited) (insert node stacked) with
      | none => none
      | some (true, visited, stacked) => some (true, visited, stacked)
      | some (false, visited, stacked) => some (false, visited, stacked.erase node)

/-- The loop of `isCycle` over the vertices. -/
def visitVertices (dfs : V → Finset V → Finset V → Option (Bool × Finset V × Finset V)) :
    List V → Finset V → Finset V → Option Bool
  | [], _, _ => some false
  | vertex :: vertices, visited, stacked =>
      if vertex ∉ visited then
        match dfs vertex visited stacked with
        | none => none
        | some (true, _, _) => some true
        | some (false, visited, stacked) => visitVertices dfs vertices visited stacked
      else visitVertices dfs vertices visited stacked

/-- `isCycle`; the recursion of `DFS` is never deeper than the number of vertices. -/
def isCycle (L : GraphListing V) (g : FiniteDigraph V) : Option Bool :=
  visitVertices (DFS L g (g.vertices.card + 1)) (L.vertices g) ∅ ∅

/-! ## Threads, drms and the global state -/

/-- The pointers that occur as vertices of `g`. -/
inductive Vertex (D T : Type*)
  | drm (d : D)
  | thread (t : T)
  deriving DecidableEq

/-- Where a thread stands in `drm_wait`: outside, about to lock the drm's mutex, or
holding it before the second critical section. -/
inductive Pc (D : Type*)
  | idle
  | wantsMutex (d : D)
  | gotMutex (d : D)
  deriving DecidableEq

/-- The resource graph, the holders of the drms' mutexes, the thread that left the
global mutex locked, and the threads' positions.  The graph exists once a drm does. -/
structure State (D T : Type*) where
  g : FiniteDigraph (Vertex D T)
  mtx : D → Option T
  global : Option T
  pc : T → Pc D

variable {D T : Type*} [DecidableEq D] [DecidableEq T]

namespace State

def init : State D T where
  g := FiniteDigraph.empty
  mtx := fun _ ↦ none
  global := none
  pc := fun _ ↦ .idle

def setPc (s : State D T) (t : T) (pc : Pc D) : State D T :=
  { s with pc := Function.update s.pc t pc }

def setMtx (s : State D T) (d : D) (holder : Option T) : State D T :=
  { s with mtx := Function.update s.mtx d holder }

/-- `drm_init`, on the pointer that `malloc` returned. -/
def drmInit (s : State D T) (drm : D) : State D T :=
  { s.setMtx drm none with g := s.g.addVertex (.drm drm) }

/-- `drm_post`: one critical section, and the value returned. -/
def drmPost (s : State D T) (drm : Option D) (threadId : T) : ℤ × State D T :=
  match drm with
  | none => (0, s)
  | some drm =>
      if ¬ s.g.Adj (.drm drm) (.thread threadId) then (0, s)
      else (1, { s with g := s.g.removeEdge (.drm drm) (.thread threadId) }.setMtx drm none)

/-- The first critical section of `drm_wait`.  The result is the value returned, or
`none` where the call goes on to lock the drm's mutex.  The first two returns do
not unlock the global mutex. -/
def drmWait (L : GraphListing (Vertex D T)) (s : State D T) (drm : Option D) (threadId : T) :
    Option (Option ℤ × State D T) :=
  match drm with
  | none => some (some 0, { s with global := some threadId })
  | some drm =>
      if Vertex.drm drm ∉ s.g.vertices then some (some 0, { s with global := some threadId })
      else
        let g := if Vertex.thread threadId ∉ s.g.vertices then s.g.addVertex (.thread threadId)
          else s.g
        if g.Adj (.drm drm) (.thread threadId) then some (some 0, { s with g := g })
        else
          let requested := g.addEdge (.thread threadId) (.drm drm)
          match isCycle L requested with
          | none => none
          | some true =>
              some (some 0, { s with g := requested.removeEdge (.thread threadId) (.drm drm) })
          | some false =>
              some (none, { s with g := requested }.setPc threadId (.wantsMutex drm))

/-- The second critical section of `drm_wait`, after which the call returns 1. -/
def drmWaitOwn (s : State D T) (drm : D) (threadId : T) : ℤ × State D T :=
  (1, { s with
    g := (s.g.removeEdge (.thread threadId) (.drm drm)).addEdge (.drm drm) (.thread threadId)
    }.setPc threadId .idle)

end State

/-! ## Interleavings -/

/-- A step of one thread. -/
inductive Event (D T : Type*)
  | init (drm : D)
  | post (drm : Option D) (threadId : T)
  | wait (drm : Option D) (threadId : T)
  | lockMutex (threadId : T)
  | own (threadId : T)

/-- The steps that the two mutexes allow.  A thread is inside at most one call, and
`drm_init` receives memory that is not in use as a drm. -/
def State.step (L : GraphListing (Vertex D T)) (s : State D T) : Event D T → Option (State D T)
  | .init drm =>
      if s.global = none ∧ Vertex.drm drm ∉ s.g.vertices then some (s.drmInit drm) else none
  | .post drm threadId =>
      if s.global = none ∧ s.pc threadId = .idle then some (s.drmPost drm threadId).2 else none
  | .wait drm threadId =>
      if s.global = none ∧ s.pc threadId = .idle then
        (s.drmWait L drm threadId).map Prod.snd
      else none
  | .lockMutex threadId =>
      match s.pc threadId with
      | .wantsMutex drm =>
          if s.mtx drm = none then
            some ((s.setMtx drm (some threadId)).setPc threadId (.gotMutex drm))
          else none
      | _ => none
  | .own threadId =>
      match s.pc threadId with
      | .gotMutex drm => if s.global = none then some (s.drmWaitOwn drm threadId).2 else none
      | _ => none

end SystemProgramming.DeadlockDemolition
