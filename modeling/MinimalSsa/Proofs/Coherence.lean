import MinimalSsa.Dominance.Cache
import MinimalSsa.Proofs.DepthFirst
import MinimalSsa.Proofs.Editing
import MinimalSsa.Proofs.Listing
import MinimalSsa.Proofs.Tree

/-!
# Remembered analyses stay right

A cache is asked and the method is edited by turns. As long as no edge changes, whatever the
cache answers is what a new analysis would answer. The remembered tables may be too short for
the method as it has become; they are compared by their answers, not as data.

Every answer of an analysis says something about walks, and walks depend on the successors
alone. So the analyses of two graphs with the same edges agree, however many blocks without
edges the later one has.

* `Graph.Extends`: the same edges, perhaps more blocks; `Change.extends_apply`: what a change
  that is not a retargeting does to the graph.
* `Dominance.Agrees`: every question is answered alike;
  `Dominance.exists_agrees_of_compute`: an analysis agrees with those of grown graphs.
* `CachedMethod.Coherent`: the invariant of the cache, kept by every turn;
  `CachedMethod.Coherent.inRange_ask`: what it hands out is never read out of range.
* `CachedMethod.ask_answers_afresh`: the answers after any number of turns.
-/

namespace MinimalSsa

namespace Graph

variable {graph later : Graph} {head source target a b block : BlockId}

/-! ## Graphs that grow -/

/-- `later` has the edges of `graph`. It may have further blocks, without edges. -/
structure Extends (graph later : Graph) : Prop where
  size_le : graph.size ≤ later.size
  successors_eq : ∀ block, later.successors block = graph.successors block
  predecessors_eq : ∀ block, later.predecessors block = graph.predecessors block

namespace Extends

theorem refl (graph : Graph) : graph.Extends graph :=
  ⟨Nat.le_refl _, fun _ => rfl, fun _ => rfl⟩

theorem trans {last : Graph} (h : graph.Extends later) (hlast : later.Extends last) :
    graph.Extends last where
  size_le := Nat.le_trans h.size_le hlast.size_le
  successors_eq block := (hlast.successors_eq block).trans (h.successors_eq block)
  predecessors_eq block := (hlast.predecessors_eq block).trans (h.predecessors_eq block)

theorem mirrored (h : graph.Extends later) (hmirrored : graph.Mirrored) : later.Mirrored where
  target_lt source target hedge := by
    rw [h.successors_eq] at hedge
    exact Nat.lt_of_lt_of_le (hmirrored.target_lt source target hedge) h.size_le
  pred_iff source target := by
    rw [h.successors_eq, h.predecessors_eq]
    exact hmirrored.pred_iff source target

end Extends

/-! ## What depends on the successors alone -/

section Successors

theorem Walk.of_successors_eq
    (h : ∀ block, later.successors block = graph.successors block) {visited : List BlockId}
    (hwalk : graph.Walk source target visited) : later.Walk source target visited := by
  induction hwalk with
  | here block => exact .here block
  | step hedge _ ih => exact .step (by rwa [h]) ih

theorem Explored.of_successors_eq
    (h : ∀ block, later.successors block = graph.successors block)
    {seen blocks post : List BlockId} (hpost : graph.Explored seen blocks post) :
    later.Explored seen blocks post := by
  induction hpost with
  | done seen => exact .done seen
  | skip hmem _ ih => exact .skip hmem ih
  | visit hnew _ _ ihbelow ihbeside => exact .visit hnew (by rwa [h]) ihbeside

variable (h : ∀ block, later.successors block = graph.successors block)

include h

theorem walk_congr {visited : List BlockId} :
    later.Walk source target visited ↔ graph.Walk source target visited :=
  ⟨.of_successors_eq fun block => (h block).symm, .of_successors_eq h⟩

theorem reaches_congr : later.Reaches source target ↔ graph.Reaches source target :=
  exists_congr fun _ => walk_congr h

theorem dominates_congr : later.Dominates head a b ↔ graph.Dominates head a b := by
  unfold Dominates
  simp only [reaches_congr h, walk_congr h]

theorem strictlyDominates_congr :
    later.StrictlyDominates head a b ↔ graph.StrictlyDominates head a b := by
  unfold StrictlyDominates
  rw [dominates_congr h]

theorem immediatelyDominates_congr :
    later.ImmediatelyDominates head a b ↔ graph.ImmediatelyDominates head a b := by
  unfold ImmediatelyDominates
  simp only [strictlyDominates_congr h, dominates_congr h]

theorem inFrontier_congr : later.InFrontier head a b ↔ graph.InFrontier head a b := by
  unfold InFrontier
  simp only [h, dominates_congr h, strictlyDominates_congr h]

end Successors

theorem IteratedFrontier.of_successors_eq
    (h : ∀ block, later.successors block = graph.successors block) {blocks : Set BlockId}
    (hfrontier : graph.IteratedFrontier head blocks block) :
    later.IteratedFrontier head blocks block := by
  induction hfrontier with
  | base hmem hfrontier => exact .base hmem ((inFrontier_congr h).mpr hfrontier)
  | next _ hfrontier ih => exact .next ih ((inFrontier_congr h).mpr hfrontier)

theorem iteratedFrontier_congr
    (h : ∀ block, later.successors block = graph.successors block) {blocks : Set BlockId} :
    later.IteratedFrontier head blocks block ↔ graph.IteratedFrontier head blocks block :=
  ⟨.of_successors_eq fun block => (h block).symm, .of_successors_eq h⟩

/-- So the search of a grown graph finds the same order. -/
theorem Extends.reversePostorder_eq (h : graph.Extends later) (hmirrored : graph.Mirrored)
    (hhead : head < graph.size) :
    later.reversePostorder head = graph.reversePostorder head := by
  obtain ⟨post, hpost⟩ : ∃ post, graph.Explored [] [head] post :=
    exists_explored hmirrored.target_lt (by simpa using hhead)
  rw [Graph.reversePostorder_eq hmirrored.target_lt hhead hpost,
    Graph.reversePostorder_eq (h.mirrored hmirrored).target_lt
      (Nat.lt_of_lt_of_le hhead h.size_le) (hpost.of_successors_eq h.successors_eq)]

end Graph

/-! ## Analyses that agree -/

namespace Dominance

/-- Two analyses answer every question alike. -/
structure Agrees (known fresh : Dominance) : Prop where
  head_eq : known.head = fresh.head
  order_eq : known.order = fresh.order
  isReachable_eq : ∀ block, known.isReachable block = fresh.isReachable block
  immediateDominator?_eq : ∀ block,
    known.immediateDominator? block = fresh.immediateDominator? block
  childrenOf_eq : ∀ block, known.childrenOf block = fresh.childrenOf block
  dominates_eq : ∀ a b, known.dominates a b = fresh.dominates a b
  tree_eq : known.tree = fresh.tree
  frontier_eq : ∀ block, known.frontier block = fresh.frontier block
  iteratedFrontier_eq : ∀ blocks, known.iteratedFrontier blocks = fresh.iteratedFrontier blocks

theorem Agrees.refl (dominance : Dominance) : dominance.Agrees dominance := by
  constructor <;> intros <;> rfl

section Grown

variable {graph later : Graph} {head : BlockId} {order : List BlockId}
variable (hsearch : graph.Searched head order) (hlater : later.Searched head order)
variable (h : ∀ block, later.successors block = graph.successors block)

include hsearch hlater h

theorem isReachable_grown (block : BlockId) :
    (ofOrder graph head order).isReachable block =
      (ofOrder later head order).isReachable block := by
  rw [Bool.eq_iff_iff, isReachable_iff hsearch, isReachable_iff hlater, Graph.reaches_congr h]

theorem immediateDominator?_grown (block : BlockId) :
    (ofOrder graph head order).immediateDominator? block =
      (ofOrder later head order).immediateDominator? block := by
  ext parent
  rw [immediateDominator?_eq_some_iff hsearch, immediateDominator?_eq_some_iff hlater,
    Graph.immediatelyDominates_congr h]

/-- The frontiers are parts of one order, and hold the same blocks. -/
theorem frontierOf_grown {block : BlockId} (hblock : graph.Reaches head block) :
    (ofOrder graph head order).frontierOf block = (ofOrder later head order).frontierOf block := by
  refine (Along.of_sublist (frontierOf_sublist graph head block order) hsearch.nodup).eq_of_mem_iff
    (.of_sublist (frontierOf_sublist later head block order) hsearch.nodup) fun other => ?_
  rw [mem_frontierOf_iff hsearch hblock,
    mem_frontierOf_iff hlater ((Graph.reaches_congr h).mpr hblock), Graph.inFrontier_congr h]

theorem closeFrontier_grown {blocks : List BlockId}
    (hblocks : ∀ block ∈ blocks, graph.Reaches head block) :
    (ofOrder graph head order).closeFrontier blocks =
      (ofOrder later head order).closeFrontier blocks := by
  have hpart : ∀ grown : Graph, Along order ((ofOrder grown head order).closeFrontier blocks) :=
    fun _ => .of_sublist List.filter_sublist hsearch.nodup
  refine (hpart graph).eq_of_mem_iff (hpart later) fun other => ?_
  rw [mem_closeFrontier_iff hsearch hblocks, mem_closeFrontier_iff hlater
    fun block hblock => (Graph.reaches_congr h).mpr (hblocks block hblock),
    Graph.iteratedFrontier_congr h]

/-- The tables of the two analyses differ in length, but no answer does. -/
theorem agrees_grown : (ofOrder graph head order).Agrees (ofOrder later head order) := by
  have hreachable := isReachable_grown hsearch hlater h
  have hparent := immediateDominator?_grown hsearch hlater h
  constructor
  case head_eq => rfl
  case order_eq => rfl
  case isReachable_eq => exact hreachable
  case immediateDominator?_eq => exact hparent
  case childrenOf_eq =>
    intro block
    simp only [childrenOf_eq_filter hsearch, childrenOf_eq_filter hlater, hparent]
  case dominates_eq =>
    intro a b
    rw [Bool.eq_iff_iff, dominates_iff hsearch, dominates_iff hlater, Graph.dominates_congr h]
  case tree_eq =>
    show order.filterMap (fun block =>
        ((ofOrder graph head order).immediateDominator? block).map (block, ·)) =
      order.filterMap fun block =>
        ((ofOrder later head order).immediateDominator? block).map (block, ·)
    simp only [hparent]
  case frontier_eq =>
    intro block
    by_cases hblock : graph.Reaches head block
    · rw [frontier_eq_ok hsearch hblock,
        frontier_eq_ok hlater ((Graph.reaches_congr h).mpr hblock),
        frontierOf_grown hsearch hlater h hblock]
    · rw [frontier_eq_error hsearch hblock,
        frontier_eq_error hlater fun hreach => hblock ((Graph.reaches_congr h).mp hreach)]
  case iteratedFrontier_eq =>
    intro blocks
    simp only [iteratedFrontier_eq, hreachable]
    cases hfind : blocks.find? fun block => !(ofOrder later head order).isReachable block with
    | some block => rfl
    | none =>
      -- no block is refused, so the worklist runs on blocks within reach only
      have hblocks : ∀ block ∈ blocks, graph.Reaches head block := by
        intro block hblock
        rw [← isReachable_iff hsearch, hreachable]
        simpa using List.find?_eq_none.mp hfind block hblock
      exact congrArg Except.ok (closeFrontier_grown hsearch hlater h hblocks)

end Grown

/-- An analysis of a graph answers like one of any graph that has grown out of it. -/
theorem exists_agrees_of_compute {graph later : Graph} {head : BlockId} {known : Dominance}
    (hmirrored : graph.Mirrored) (hextends : graph.Extends later)
    (hknown : compute graph head = .ok known) :
    ∃ fresh, compute later head = .ok fresh ∧ known.Agrees fresh := by
  have hhead := lt_size_of_compute hknown
  obtain ⟨order, hsearch, horder, hok⟩ := compute_eq_ok hmirrored hhead
  obtain ⟨order', hlater, horder', hfresh⟩ := compute_eq_ok (hextends.mirrored hmirrored)
    (Nat.lt_of_lt_of_le hhead hextends.size_le)
  -- both analyses are made from one order, so only the sizes of their tables can differ
  obtain rfl : order = order' := by
    rw [hextends.reversePostorder_eq hmirrored hhead, horder] at horder'
    exact Except.ok.inj horder'
  obtain rfl := Except.ok.inj (hknown.symm.trans hok)
  exact ⟨_, hfresh, agrees_grown hsearch hlater hextends.successors_eq⟩

end Dominance

/-! ## Changes that leave edges alone -/

namespace Change

/-- The change is not a retargeting. -/
def KeepsEdges : Change → Prop
  | .retarget _ _ => False
  | _ => True

instance : (change : Change) → Decidable change.KeepsEdges
  | .retarget _ _ => inferInstanceAs (Decidable False)
  | .addBlock _ | .addHead _ | .addRegion _ | .newRegister | .push _ _ | .pushPhi _ _
  | .placePhis _ => inferInstanceAs (Decidable True)

/-- All that such a change does to the graph is to add a block, be it legal or not. -/
theorem extends_apply (method : Method) {change : Change} (hkeeps : change.KeepsEdges) :
    method.graph.Extends (change.apply method).method.graph := by
  have hsame : ∀ {later : Graph}, later = method.graph → method.graph.Extends later := by
    rintro _ rfl
    exact .refl _
  cases change with
  | addBlock name =>
    refine ⟨?_, fun block => (Method.edges_addBlock method name block).1,
      fun block => (Method.edges_addBlock method name block).2⟩
    rw [Graph.size_graph, Graph.size_graph]
    show method.blocks.size ≤ (method.blocks.push { name := name }).size
    rw [Array.size_push]
    exact Nat.le_succ _
  | addHead block =>
    refine hsame ?_
    simp only [apply, Method.addHead]
    split <;> rfl
  | addRegion region => exact hsame rfl
  | newRegister => exact hsame rfl
  | push block instruction => exact hsame (Method.graph_push method block instruction)
  | pushPhi block phi => exact hsame (Method.graph_pushPhi method block phi)
  | placePhis stats => exact hsame (Method.graph_place method stats)
  | retarget block terminator => exact hkeeps.elim

end Change

/-! ## Asking and editing by turns -/

/-- A method that is worked on, with the analyses that were asked for meanwhile. -/
structure CachedMethod where
  method : Method
  cache : DominanceCache := {}
  deriving DecidableEq

namespace CachedMethod

/-- One turn: a question for the analysis of a head, or a change of the method. -/
inductive Turn where
  | ask (head : BlockId)
  | edit (change : Change)

/-- Ask for the analysis of a head. A failure leaves the cache as it is. -/
def ask (state : CachedMethod) (head : BlockId) : Except Failure Dominance × CachedMethod :=
  match state.cache.get state.method.graph head with
  | .ok (known, cache) => (.ok known, { state with cache := cache })
  | .error failure => (.error failure, state)

/-- Take a turn. -/
def step (state : CachedMethod) : Turn → CachedMethod
  | .ask head => (state.ask head).2
  | .edit change => { state with method := (change.apply state.method).method }

/-- Take turns in a row. -/
def run (state : CachedMethod) (turns : List Turn) : CachedMethod :=
  turns.foldl step state

/-- The turn changes no edge. -/
def Turn.KeepsEdges : Turn → Prop
  | .ask _ => True
  | .edit change => change.KeepsEdges

instance : (turn : Turn) → Decidable turn.KeepsEdges
  | .ask _ => inferInstanceAs (Decidable True)
  | .edit change => inferInstanceAs (Decidable change.KeepsEdges)

/-- Two answers are the same failure, or analyses that agree. -/
def Alike : Except Failure Dominance → Except Failure Dominance → Prop
  | .ok known, .ok fresh => known.Agrees fresh
  | .error failure, .error other => failure = other
  | _, _ => False

/-- The edges have both ends, and every analysis in the cache was made on a graph that the
present one has grown out of. -/
structure Coherent (state : CachedMethod) : Prop where
  mirrored : state.method.graph.Mirrored
  entries : ∀ entry ∈ state.cache.entries, ∃ made : Graph, made.Mirrored ∧
    made.Extends state.method.graph ∧ Dominance.compute made entry.1 = .ok entry.2

variable {state : CachedMethod}

/-- What asking can do: answer from the cache, compute and keep, or fail. -/
theorem ask_cases (state : CachedMethod) (head : BlockId) :
    (∃ known, (head, known) ∈ state.cache.entries ∧ state.ask head = (.ok known, state)) ∨
    (∃ fresh, Dominance.compute state.method.graph head = .ok fresh ∧
      state.ask head = (.ok fresh, { state with
        cache := { entries := (head, fresh) :: state.cache.entries } })) ∨
    (∃ failure, Dominance.compute state.method.graph head = .error failure ∧
      state.ask head = (.error failure, state)) := by
  unfold ask DominanceCache.get
  cases hlookup : state.cache.entries.lookup head with
  | some known =>
    obtain ⟨before, after, hentries, -⟩ := List.lookup_eq_some_iff.mp hlookup
    refine .inl ⟨known, ?_, rfl⟩
    rw [hentries]
    exact List.mem_append_right _ List.mem_cons_self
  | none =>
    cases hcompute : Dominance.compute state.method.graph head with
    | ok fresh => exact .inr (.inl ⟨fresh, rfl, rfl⟩)
    | error failure => exact .inr (.inr ⟨failure, rfl, rfl⟩)

namespace Coherent

/-- To begin with, nothing is remembered. -/
theorem start {method : Method} (hverify : method.verify = .ok ()) :
    Coherent { method := method } where
  mirrored := (Method.verify_eq_ok_iff.mp hverify).mirrored
  entries := fun _ hentry => absurd hentry List.not_mem_nil

theorem ask (h : state.Coherent) (head : BlockId) : (state.ask head).2.Coherent := by
  rcases state.ask_cases head with
    ⟨known, -, hask⟩ | ⟨fresh, hcompute, hask⟩ | ⟨failure, -, hask⟩
  · rwa [hask]
  · rw [hask]
    refine ⟨h.mirrored, fun entry hentry => ?_⟩
    rcases List.mem_cons.mp hentry with rfl | hentry
    · exact ⟨_, h.mirrored, .refl _, hcompute⟩
    · exact h.entries entry hentry
  · rwa [hask]

theorem alike (h : state.Coherent) (head : BlockId) :
    Alike (state.ask head).1 (Dominance.compute state.method.graph head) := by
  rcases state.ask_cases head with
    ⟨known, hknown, hask⟩ | ⟨fresh, hcompute, hask⟩ | ⟨failure, hcompute, hask⟩
  · obtain ⟨made, hmade, hextends, hcomputed⟩ := h.entries _ hknown
    obtain ⟨fresh, hcompute, hagrees⟩ :=
      Dominance.exists_agrees_of_compute hmade hextends hcomputed
    rw [hask, hcompute]
    exact hagrees
  · rw [hask, hcompute]
    exact .refl fresh
  · rw [hask, hcompute]
    rfl

/-- A remembered analysis outlives a change that keeps the edges. -/
theorem edit (h : state.Coherent) {change : Change} (hkeeps : change.KeepsEdges) :
    (state.step (.edit change)).Coherent := by
  have hextends := Change.extends_apply state.method hkeeps
  refine ⟨hextends.mirrored h.mirrored, fun entry hentry => ?_⟩
  obtain ⟨made, hmade, hbefore, hcomputed⟩ := h.entries entry hentry
  exact ⟨made, hmade, hbefore.trans hextends, hcomputed⟩

theorem step (h : state.Coherent) {turn : Turn} (hkeeps : turn.KeepsEdges) :
    (state.step turn).Coherent := by
  cases turn with
  | ask head => exact h.ask head
  | edit change => exact h.edit hkeeps

theorem run (h : state.Coherent) {turns : List Turn}
    (hkeeps : ∀ turn ∈ turns, turn.KeepsEdges) : (state.run turns).Coherent := by
  induction turns generalizing state with
  | nil => exact h
  | cons turn turns ih =>
    obtain ⟨hturn, hturns⟩ := List.forall_mem_cons.mp hkeeps
    exact ih (h.step hturn) hturns

/-- The tables of a remembered analysis fit the graph that it was made on, -/
theorem bounded (h : state.Coherent) :
    ∀ entry ∈ state.cache.entries, ∃ made : Graph,
      made.Extends state.method.graph ∧ entry.2.Bounded made := by
  intro entry hentry
  obtain ⟨made, hmade, hextends, hcomputed⟩ := h.entries entry hentry
  exact ⟨made, hextends, Dominance.bounded_of_compute hmade hcomputed⟩

/-- so nothing that is asked of it is looked up beyond them, though the method may have more
blocks by now. -/
theorem inRange_ask (h : state.Coherent) {head : BlockId} {known : Dominance}
    (hask : (state.ask head).1 = .ok known) : known.InRange := by
  obtain ⟨entry, hentry, rfl⟩ : ∃ entry ∈ (state.ask head).2.cache.entries, entry.2 = known := by
    rcases state.ask_cases head with
      ⟨found, hfound, heq⟩ | ⟨fresh, -, heq⟩ | ⟨failure, -, heq⟩ <;> rw [heq] at hask ⊢
    · exact ⟨_, hfound, Except.ok.inj hask⟩
    · exact ⟨_, List.mem_cons_self, Except.ok.inj hask⟩
    · cases hask
  obtain ⟨made, -, hbounded⟩ := (h.ask head).bounded entry hentry
  exact hbounded.inRange

end Coherent

/-- Whatever was asked and edited before, as long as no edge was changed, the cache answers
like an analysis of the method as it is now. Asking does not touch the method, and a failure
does not touch the cache either. -/
theorem ask_answers_afresh (method : Method) (hverify : method.verify = .ok ())
    (turns : List Turn) (hkeeps : ∀ turn ∈ turns, turn.KeepsEdges) (head : BlockId) :
    let state := ({ method := method } : CachedMethod).run turns
    Alike (state.ask head).1 (Dominance.compute state.method.graph head) ∧
      (state.ask head).2.method = state.method ∧
      ∀ failure, (state.ask head).1 = .error failure → (state.ask head).2 = state := by
  intro state
  have hcoherent : state.Coherent := (Coherent.start hverify).run hkeeps
  refine ⟨hcoherent.alike head, ?_⟩
  rcases state.ask_cases head with ⟨known, -, hask⟩ | ⟨fresh, -, hask⟩ | ⟨failure, -, hask⟩
  · rw [hask]
    exact ⟨rfl, fun _ _ => rfl⟩
  · rw [hask]
    exact ⟨rfl, fun _ herror => nomatch herror⟩
  · rw [hask]
    exact ⟨rfl, fun _ _ => rfl⟩

/-- Questions before and after every kind of change, some of them about what is not there. -/
def loopTurns : List Turn := [
  .ask 0, .ask 5, .edit (.push 1 (.assign 0 0)), .edit (.push 2 (.assign 0 1)),
  .edit (.addHead 4), .edit (.placePhis {}), .edit (.addBlock none), .ask 5,
  .edit (.push 7 (.assign 0 0)), .edit .newRegister, .edit (.pushPhi 3 (.phiFor 1 [1, 4])),
  .edit (.addRegion { guarded := [9], handler := 5 }), .edit (.addHead 9), .ask 9]

/-- The loop after these turns. -/
def editedLoop : CachedMethod :=
  run { method := Dominance.crossedLoop } loopTurns

/-- What is known of the loop has no room for the block that was added, so it is not what a
new analysis gives, but it answers like it. -/
theorem ask_answers_afresh_loopTurns :
    Dominance.crossedLoop.verify = .ok () ∧ (∀ turn ∈ loopTurns, turn.KeepsEdges) ∧
      (∃ known fresh, (editedLoop.ask 0).1 = .ok known ∧
        Dominance.compute editedLoop.method.graph 0 = .ok fresh ∧ known ≠ fresh ∧
        known.Agrees fresh) ∧
      (editedLoop.ask 9).1 = .error (.violation (.missingBlock 9 9)) ∧
      (editedLoop.ask 9).2 = editedLoop := by
  have hkeeps : ∀ turn ∈ loopTurns, turn.KeepsEdges := by decide
  have hafresh := ask_answers_afresh Dominance.crossedLoop rfl loopTurns hkeeps
  have hknown : (editedLoop.ask 0).1.map (·.parents.size) = .ok 5 := by decide +kernel
  have hfresh : (Dominance.compute editedLoop.method.graph 0).map (·.parents.size) = .ok 6 := by
    decide +kernel
  have hmissing : (editedLoop.ask 9).1 = .error (.violation (.missingBlock 9 9)) := by decide +kernel
  have halike : Alike (editedLoop.ask 0).1 (Dominance.compute editedLoop.method.graph 0) :=
    (hafresh 0).1
  refine ⟨rfl, hkeeps, ?_, hmissing, (hafresh 9).2.2 _ hmissing⟩
  generalize (editedLoop.ask 0).1 = answer at *
  generalize Dominance.compute editedLoop.method.graph 0 = afresh at *
  cases answer with
  | error failure => cases hknown
  | ok known =>
    cases afresh with
    | error failure => cases hfresh
    | ok fresh =>
      refine ⟨known, fresh, rfl, rfl, ?_, halike⟩
      rintro rfl
      cases hknown.symm.trans hfresh

end CachedMethod

end MinimalSsa
