import Mathlib.Data.List.Perm.Subperm
import Mathlib.Data.Set.Subsingleton
import Mathlib.Order.Bounds.Basic
import MinimalSsa.Placement.Sites
import MinimalSsa.Proofs.Frontier

/-!
# The least sites that answer every head

A head asks for merges in the iterated frontier of the definitions it reaches, and a
merge made for one head is a definition for the others. The sites of a register are
the least set that answers every head. The heads are visited in turn and each visit
works on what the visits before it have added; whatever the order, every visit stays
inside each set that answers all heads, and a round that adds nothing has answered
them all.

* `Graph.Asks`, `Graph.SitesClosed`: what a head asks for, and sets that answer.
* `Graph.IsSites`: the sites of a register, by its defining blocks.
* `Sites.Grows`: what visits do to the sites, with one lemma per loop.
* `Sites.ofBlocks_eq_ok`: the rounds end with the sites of the register.
* `Sites.Rearranged`: lists of sites that differ only in the order within each
  register; `Sites.ofEntries_rearranged`: the order of the heads has no other effect.
-/

namespace MinimalSsa

namespace Graph

variable {graph : Graph} {head y : BlockId} {heads : List BlockId}
variable {blocks others sites : Set BlockId}

/-! ## What heads ask for -/

/-- The head asks for a merge in `y`: it reaches a definition, and `y` is in the iterated
frontier of the definitions it reaches and the head. -/
def Asks (graph : Graph) (head : BlockId) (blocks : Set BlockId) (y : BlockId) : Prop :=
  (∃ block ∈ blocks, graph.Reaches head block) ∧
    graph.IteratedFrontier head (insert head {block ∈ blocks | graph.Reaches head block}) y

/-- More definitions make a head ask for more. -/
theorem Asks.mono (hsub : blocks ⊆ others) (h : graph.Asks head blocks y) :
    graph.Asks head others y := by
  obtain ⟨⟨block, hblock, hreach⟩, hfrontier⟩ := h
  refine ⟨⟨block, hsub hblock, hreach⟩, hfrontier.mono (Set.insert_subset_insert ?_)⟩
  exact fun other hother => ⟨hsub hother.1, hother.2⟩

/-- A set of sites that holds whatever a head asks for, given the definitions in `blocks`
and those that the sites make. -/
def SitesClosed (graph : Graph) (heads : List BlockId) (blocks sites : Set BlockId) : Prop :=
  ∀ head ∈ heads, ∀ y, graph.Asks head (blocks ∪ sites) y → y ∈ sites

theorem sitesClosed_congr {rearranged : List BlockId}
    (h : ∀ head, head ∈ rearranged ↔ head ∈ heads) :
    graph.SitesClosed rearranged blocks sites ↔ graph.SitesClosed heads blocks sites :=
  forall_congr' fun head => by rw [h head]

/-- The sites of a register defined in `blocks`: none for a single definition, and
otherwise the least set that answers every head. -/
structure IsSites (graph : Graph) (heads : List BlockId) (blocks sites : Set BlockId) :
    Prop where
  single : blocks.Subsingleton → sites = ∅
  least : blocks.Nontrivial → IsLeast {region | graph.SitesClosed heads blocks region} sites

theorem IsSites.unique {heads rearranged : List BlockId} {sites others : Set BlockId}
    (hheads : ∀ head, head ∈ rearranged ↔ head ∈ heads)
    (hsites : graph.IsSites heads blocks sites)
    (hothers : graph.IsSites rearranged blocks others) : sites = others := by
  rcases blocks.subsingleton_or_nontrivial with hsingle | hmany
  · rw [hsites.single hsingle, hothers.single hsingle]
  · have hleast := hothers.least hmany
    simp only [sitesClosed_congr hheads] at hleast
    exact (hsites.least hmany).unique hleast

/-- A single head that reaches every definition asks for their iterated frontier. -/
theorem IsSites.eq_iteratedFrontier (hsites : graph.IsSites heads blocks sites)
    (hheads : ∀ other, other ∈ heads ↔ other = head) (hmany : blocks.Nontrivial)
    (hreach : ∀ block ∈ blocks, graph.Reaches head block) :
    sites = {y | graph.IteratedFrontier head (insert head blocks) y} := by
  have hleast := hsites.least hmany
  apply Set.Subset.antisymm
  · -- the iterated frontier answers the head
    apply hleast.2
    intro other hother y hask
    obtain rfl := (hheads other).mp hother
    refine hask.2.subset_of_closed ?_ fun x hx z hz => .next hx hz
    rintro x (rfl | ⟨hx | hx, -⟩) z hz
    · exact .base (Set.mem_insert _ _) hz
    · exact .base (Set.mem_insert_of_mem _ hx) hz
    · exact .next hx hz
  · intro y hy
    obtain ⟨block, hblock⟩ := hmany.nonempty
    refine hleast.1 head ((hheads head).mpr rfl) y
      ⟨⟨block, .inl hblock, hreach block hblock⟩, hy.mono (Set.insert_subset_insert ?_)⟩
    exact fun other hother => ⟨.inl hother, hreach other hother⟩

/-! ## The analyses of the heads -/

/-- `dominance` is the analysis of its head. -/
def Analysed (graph : Graph) (dominance : Dominance) : Prop :=
  ∃ head order, graph.Searched head order ∧ dominance = Dominance.ofOrder graph head order

end Graph

@[simp] theorem Dominance.head_ofOrder (graph : Graph) (head : BlockId)
    (order : List BlockId) : (Dominance.ofOrder graph head order).head = head := rfl

namespace Sites

variable {graph : Graph} {dominance : Dominance}
variable {heads blocks sites grown : List BlockId}

/-- The heads of a method with mirrored edges are analysed one by one. -/
theorem analyses_eq_ok (hmirrored : graph.Mirrored)
    (hheads : ∀ head ∈ heads, head < graph.size) :
    ∃ found, analyses graph heads = .ok found ∧ found.map Dominance.head = heads ∧
      ∀ dominance ∈ found, graph.Analysed dominance := by
  induction heads with
  | nil => exact ⟨[], rfl, rfl, by simp⟩
  | cons head heads ih =>
    obtain ⟨order, hsearch, -, hok⟩ :=
      Dominance.compute_eq_ok hmirrored (hheads head List.mem_cons_self)
    obtain ⟨others, hothers, hmap, hall⟩ :=
      ih fun other hother => hheads other (List.mem_cons_of_mem _ hother)
    refine ⟨Dominance.ofOrder graph head order :: others, ?_, ?_, ?_⟩
    · simp only [analyses, hok, hothers]
    · rw [List.map_cons, hmap, Dominance.head_ofOrder]
    · intro dominance hmem
      rcases List.mem_cons.mp hmem with rfl | hmem
      · exact ⟨head, order, hsearch, rfl⟩
      · exact hall dominance hmem

/-! ## One visit -/

/-- A visit adds what the head asks for and is not there. -/
theorem visit_eq_ok (hanalysed : graph.Analysed dominance) (blocks sites : List BlockId) :
    ∃ added, visit blocks sites dominance = .ok (sites ++ added) ∧ added.Nodup ∧
      ∀ y, y ∈ added ↔ y ∉ sites ∧
        graph.Asks dominance.head ({block | block ∈ blocks} ∪ {block | block ∈ sites}) y := by
  obtain ⟨head, order, hsearch, rfl⟩ := hanalysed
  have hmem : ∀ block,
      block ∈ (blocks ++ sites).filter (Dominance.ofOrder graph head order).isReachable ↔
        (block ∈ blocks ∨ block ∈ sites) ∧ graph.Reaches head block := by
    intro block
    rw [List.mem_filter, List.mem_append, Dominance.isReachable_iff hsearch]
  simp only [visit, Dominance.head_ofOrder]
  cases hfilter : (blocks ++ sites).filter (Dominance.ofOrder graph head order).isReachable with
  | nil =>
    refine ⟨[], by simp, List.nodup_nil, fun y => ⟨fun hy => absurd hy List.not_mem_nil, ?_⟩⟩
    rintro ⟨-, ⟨block, hblock, hreach⟩, -⟩
    have hin := (hmem block).mpr ⟨hblock, hreach⟩
    rw [hfilter] at hin
    exact absurd hin List.not_mem_nil
  | cons first rest =>
    rw [hfilter] at hmem
    have hreach : ∀ block ∈ first :: rest ++ [head], graph.Reaches head block := by
      intro block hblock
      rcases List.mem_append.mp hblock with hblock | hblock
      · exact ((hmem block).mp hblock).2
      · rw [List.mem_singleton.mp hblock]
        exact Graph.Reaches.refl graph head
    have hsources : {block | block ∈ first :: rest ++ [head]} = insert head
        {block ∈ ({block | block ∈ blocks} ∪ {block | block ∈ sites} : Set BlockId) |
          graph.Reaches head block} := by
      ext block
      simp only [Set.mem_ofPred_eq, List.mem_append, hmem block, List.mem_singleton,
        Set.mem_insert_iff, Set.mem_union]
      exact or_comm
    have hfirst := (hmem first).mp List.mem_cons_self
    simp only [Dominance.iteratedFrontier_eq_ok hsearch hreach]
    refine ⟨_, rfl, (hsearch.nodup.filter _).filter _, fun y => ?_⟩
    rw [List.mem_filter, Dominance.mem_closeFrontier_iff hsearch hreach, hsources, and_comm]
    simp only [Bool.not_eq_true', List.contains_eq_mem, decide_eq_false_iff_not]
    exact and_congr_right fun _ => ⟨fun h => ⟨⟨first, hfirst⟩, h⟩, fun h => h.2⟩

/-! ## Rounds of visits -/

/-- What visits do to the sites: they add blocks of the graph, none twice, and only such
as every set that answers the heads must hold. -/
structure Grows (graph : Graph) (heads blocks sites grown : List BlockId) : Prop where
  more : ∃ added, grown = sites ++ added
  nodup : sites.Nodup → grown.Nodup
  lt_size : (∀ y ∈ sites, y < graph.size) → ∀ y ∈ grown, y < graph.size
  subset : ∀ region, graph.SitesClosed heads {block | block ∈ blocks} region →
    (∀ y ∈ sites, y ∈ region) → ∀ y ∈ grown, y ∈ region

namespace Grows

theorem refl (sites : List BlockId) : Grows graph heads blocks sites sites where
  more := ⟨[], (List.append_nil sites).symm⟩
  nodup := id
  lt_size := id
  subset := fun _ _ => id

theorem trans {final : List BlockId} (hfirst : Grows graph heads blocks sites grown)
    (hsecond : Grows graph heads blocks grown final) :
    Grows graph heads blocks sites final where
  more := by
    obtain ⟨added, rfl⟩ := hfirst.more
    obtain ⟨further, rfl⟩ := hsecond.more
    exact ⟨added ++ further, List.append_assoc _ _ _⟩
  nodup := fun h => hsecond.nodup (hfirst.nodup h)
  lt_size := fun h => hsecond.lt_size (hfirst.lt_size h)
  subset := fun region hclosed h =>
    hsecond.subset region hclosed (hfirst.subset region hclosed h)

theorem length_le (h : Grows graph heads blocks sites grown) :
    sites.length ≤ grown.length := by
  obtain ⟨added, rfl⟩ := h.more
  simp

theorem eq_of_length (h : Grows graph heads blocks sites grown)
    (hlength : grown.length = sites.length) : grown = sites := by
  obtain ⟨added, rfl⟩ := h.more
  have hnil : added = [] := by simpa using hlength
  rw [hnil, List.append_nil]

end Grows

/-- The head of the analysis has no site to ask for. -/
def Answered (graph : Graph) (blocks sites : List BlockId) (dominance : Dominance) : Prop :=
  ∀ y, graph.Asks dominance.head ({block | block ∈ blocks} ∪ {block | block ∈ sites}) y →
    y ∈ sites

/-- A visit grows the sites, and it adds nothing only when the head is answered. -/
theorem visit_grows (hanalysed : graph.Analysed dominance) (hhead : dominance.head ∈ heads)
    (blocks sites : List BlockId) :
    ∃ grown, visit blocks sites dominance = .ok grown ∧
      Grows graph heads blocks sites grown ∧
      (grown = sites → Answered graph blocks sites dominance) := by
  obtain ⟨added, hok, hnodup, hmem⟩ := visit_eq_ok hanalysed blocks sites
  refine ⟨_, hok, ⟨⟨added, rfl⟩, ?_, ?_, ?_⟩, ?_⟩
  · intro hsites
    refine List.nodup_append'.mpr ⟨hsites, hnodup, fun y hold hnew => ?_⟩
    exact ((hmem y).mp hnew).1 hold
  · intro hlt y hy
    rcases List.mem_append.mp hy with hy | hy
    · exact hlt y hy
    · have hreach := ((hmem y).mp hy).2.2.reaches
      obtain ⟨head, order, hsearch, rfl⟩ := hanalysed
      exact hsearch.lt_size ((hsearch.mem_iff y).mpr hreach)
  · intro region hclosed hsites y hy
    rcases List.mem_append.mp hy with hy | hy
    · exact hsites y hy
    · refine hclosed dominance.head hhead y (((hmem y).mp hy).2.mono ?_)
      exact Set.union_subset_union_right _ hsites
  · intro hnone y hask
    by_contra hy
    have hnew := (hmem y).mpr ⟨hy, hask⟩
    rw [List.append_right_eq_self.mp hnone] at hnew
    exact absurd hnew List.not_mem_nil

/-- So does a round, which adds nothing only when every head is answered. -/
theorem visitAll_grows {analyses : List Dominance}
    (hanalysed : ∀ dominance ∈ analyses, graph.Analysed dominance)
    (hheads : ∀ dominance ∈ analyses, dominance.head ∈ heads) (blocks sites : List BlockId) :
    ∃ grown, visitAll blocks analyses sites = .ok grown ∧
      Grows graph heads blocks sites grown ∧
      (grown = sites → ∀ dominance ∈ analyses, Answered graph blocks sites dominance) := by
  induction analyses generalizing sites with
  | nil => exact ⟨sites, rfl, .refl sites, fun _ dominance hmem => absurd hmem (by simp)⟩
  | cons dominance analyses ih =>
    obtain ⟨hfirst, hrest⟩ := List.forall_mem_cons.mp hanalysed
    obtain ⟨hhead, hothers⟩ := List.forall_mem_cons.mp hheads
    obtain ⟨grown, hok, hgrows, hdone⟩ := visit_grows hfirst hhead blocks sites
    obtain ⟨final, hfinal, hmore, hall⟩ := ih hrest hothers grown
    refine ⟨final, by rw [visitAll, hok]; exact hfinal, hgrows.trans hmore, fun heq => ?_⟩
    -- nothing was added at the end, so neither before nor after the first visit
    have hsame : grown = sites := by
      refine hgrows.eq_of_length (Nat.le_antisymm ?_ hgrows.length_le)
      exact heq ▸ hmore.length_le
    subst hsame
    exact List.forall_mem_cons.mpr ⟨hdone rfl, hall heq⟩

/-- There are no more sites than blocks. -/
theorem length_le_size (hnodup : sites.Nodup) (hlt : ∀ y ∈ sites, y < graph.size) :
    sites.length ≤ graph.size := by
  have hlength := (hnodup.subperm fun y hy => List.mem_range.mpr (hlt y hy)).length_le
  rwa [List.length_range] at hlength

/-- With a round for every block that can still be added, the rounds end with all heads
answered. -/
theorem settle_grows {analyses : List Dominance}
    (hanalysed : ∀ dominance ∈ analyses, graph.Analysed dominance)
    (hheads : ∀ dominance ∈ analyses, dominance.head ∈ heads) (blocks sites : List BlockId)
    (count : Nat) (hnodup : sites.Nodup) (hlt : ∀ y ∈ sites, y < graph.size)
    (hcount : graph.size < count + sites.length) :
    ∃ final, settle analyses blocks count sites = .ok final ∧
      Grows graph heads blocks sites final ∧
      ∀ dominance ∈ analyses, Answered graph blocks final dominance := by
  induction count generalizing sites with
  | zero =>
    have hlength := length_le_size hnodup hlt
    omega
  | succ count ih =>
    obtain ⟨grown, hok, hgrows, hdone⟩ := visitAll_grows hanalysed hheads blocks sites
    simp only [settle, hok]
    by_cases hlength : grown.length = sites.length
    · rw [if_pos hlength]
      exact ⟨sites, rfl, .refl sites, hdone (hgrows.eq_of_length hlength)⟩
    · have hle := hgrows.length_le
      rw [if_neg hlength]
      obtain ⟨final, hfinal, hmore, hall⟩ :=
        ih grown (hgrows.nodup hnodup) (hgrows.lt_size hlt) (by omega)
      exact ⟨final, hfinal, hgrows.trans hmore, hall⟩

/-- A list without repetitions has two members when it has two places. -/
theorem nontrivial_iff_of_nodup (h : blocks.Nodup) :
    {block | block ∈ blocks}.Nontrivial ↔ ¬ blocks.length < 2 := by
  match blocks with
  | [] =>
    refine ⟨?_, fun hlength => absurd Nat.zero_lt_two hlength⟩
    rintro ⟨x, hx, -⟩
    exact absurd hx List.not_mem_nil
  | [block] =>
    refine ⟨?_, fun hlength => absurd Nat.one_lt_two hlength⟩
    rintro ⟨x, hx, y, hy, hne⟩
    exact absurd ((List.mem_singleton.mp hx).trans (List.mem_singleton.mp hy).symm) hne
  | first :: second :: rest =>
    have hne : first ≠ second := fun heq =>
      (List.nodup_cons.mp h).1 (heq ▸ List.mem_cons_self)
    refine ⟨fun _ => by simp, fun _ => ⟨first, List.mem_cons_self, second, ?_, hne⟩⟩
    exact List.mem_cons_of_mem _ List.mem_cons_self

/-- The sites found for a register are its sites. -/
theorem ofBlocks_eq_ok {analyses : List Dominance}
    (hanalysed : ∀ dominance ∈ analyses, graph.Analysed dominance)
    (hheads : analyses.map Dominance.head = heads) (hblocks : blocks.Nodup) :
    ∃ sites, ofBlocks analyses graph.size blocks = .ok sites ∧ sites.Nodup ∧
      (∀ y ∈ sites, y < graph.size) ∧
      graph.IsSites heads {block | block ∈ blocks} {block | block ∈ sites} := by
  have htwo := nontrivial_iff_of_nodup hblocks
  rw [ofBlocks]
  by_cases hlength : blocks.length < 2
  · rw [if_pos hlength]
    refine ⟨[], rfl, List.nodup_nil, by simp, fun _ => by simp, fun hmany => ?_⟩
    exact absurd hlength (htwo.mp hmany)
  · rw [if_neg hlength]
    have hmem : ∀ dominance ∈ analyses, dominance.head ∈ heads := fun dominance hdominance =>
      hheads ▸ List.mem_map_of_mem hdominance
    obtain ⟨sites, hok, hgrows, hall⟩ := settle_grows hanalysed hmem blocks []
      (graph.size + 1) List.nodup_nil (by simp) (by simp)
    refine ⟨sites, hok, hgrows.nodup List.nodup_nil, hgrows.lt_size (by simp), ?_, ?_⟩
    · intro hsingle
      exact absurd (htwo.mpr hlength) (Set.not_nontrivial_iff.mpr hsingle)
    · refine fun _ => ⟨?_, fun region hclosed y hy =>
        hgrows.subset region hclosed (by simp) y hy⟩
      intro head hhead
      rw [← hheads] at hhead
      obtain ⟨dominance, hdominance, rfl⟩ := List.mem_map.mp hhead
      exact hall dominance hdominance

/-! ## All registers -/

/-- Lists of sites that agree up to the order of the sites of each register. -/
inductive Rearranged : List (BlockId × Register) → List (BlockId × Register) → Prop where
  | nil : Rearranged [] []
  | register {sites others : List BlockId} {rest rest' : List (BlockId × Register)}
      (register : Register) : sites.Perm others → Rearranged rest rest' →
      Rearranged (sites.map (·, register) ++ rest) (others.map (·, register) ++ rest')

variable {analyses : List Dominance} {entries : List (Register × List BlockId)}

/-- The sites of several registers: for each, the sites of its blocks. -/
theorem ofEntries_eq_ok (hanalysed : ∀ dominance ∈ analyses, graph.Analysed dominance)
    (hheads : analyses.map Dominance.head = heads)
    (hentries : ∀ entry ∈ entries, entry.2.Nodup) :
    ∃ found, ofEntries analyses graph.size entries = .ok found ∧
      (∀ site ∈ found, site.1 < graph.size) ∧
      ∀ block register, (block, register) ∈ found ↔ ∃ blocks sites,
        (register, blocks) ∈ entries ∧
          graph.IsSites heads {block | block ∈ blocks} sites ∧ block ∈ sites := by
  induction entries with
  | nil => exact ⟨[], rfl, by simp, by simp⟩
  | cons entry entries ih =>
    obtain ⟨register, blocks⟩ := entry
    obtain ⟨hfirst, hrest⟩ := List.forall_mem_cons.mp hentries
    obtain ⟨sites, hok, -, hlt, hsites⟩ := ofBlocks_eq_ok hanalysed hheads hfirst
    obtain ⟨found, hfound, hbound, hmem⟩ := ih hrest
    refine ⟨sites.map (·, register) ++ found, by simp only [ofEntries, hok, hfound], ?_, ?_⟩
    · intro site hsite
      rcases List.mem_append.mp hsite with hsite | hsite
      · obtain ⟨block, hblock, rfl⟩ := List.mem_map.mp hsite
        exact hlt block hblock
      · exact hbound site hsite
    · intro block other
      rw [List.mem_append, hmem]
      constructor
      · rintro (hsite | ⟨others, region, hentry, hregion, hblock⟩)
        · obtain ⟨block, hblock, heq⟩ := List.mem_map.mp hsite
          obtain ⟨rfl, rfl⟩ := Prod.mk.inj heq
          exact ⟨blocks, _, List.mem_cons_self, hsites, hblock⟩
        · exact ⟨others, region, List.mem_cons_of_mem _ hentry, hregion, hblock⟩
      · rintro ⟨others, region, hentry, hregion, hblock⟩
        rcases List.mem_cons.mp hentry with heq | hentry
        · obtain ⟨rfl, rfl⟩ := Prod.mk.inj heq
          rw [hregion.unique (fun _ => Iff.rfl) hsites] at hblock
          exact .inl (List.mem_map_of_mem hblock)
        · exact .inr ⟨others, region, hentry, hregion, hblock⟩

/-- Another order of the heads, or a head listed twice, rearranges the sites. -/
theorem ofEntries_rearranged {analyses others : List Dominance}
    (hanalysed : ∀ dominance ∈ analyses, graph.Analysed dominance)
    (hothers : ∀ dominance ∈ others, graph.Analysed dominance)
    (hheads : ∀ head, head ∈ others.map Dominance.head ↔ head ∈ analyses.map Dominance.head)
    (hentries : ∀ entry ∈ entries, entry.2.Nodup) {found found' : List (BlockId × Register)}
    (hfound : ofEntries analyses graph.size entries = .ok found)
    (hfound' : ofEntries others graph.size entries = .ok found') :
    Rearranged found found' := by
  induction entries generalizing found found' with
  | nil =>
    obtain rfl := Except.ok.inj hfound
    obtain rfl := Except.ok.inj hfound'
    exact .nil
  | cons entry entries ih =>
    obtain ⟨register, blocks⟩ := entry
    obtain ⟨hfirst, hrest⟩ := List.forall_mem_cons.mp hentries
    obtain ⟨sites, hok, hnodup, -, hsites⟩ := ofBlocks_eq_ok hanalysed rfl hfirst
    obtain ⟨sites', hok', hnodup', -, hsites'⟩ := ofBlocks_eq_ok hothers rfl hfirst
    obtain ⟨rest, hrestOk, -⟩ := ofEntries_eq_ok hanalysed rfl hrest
    obtain ⟨rest', hrestOk', -⟩ := ofEntries_eq_ok hothers rfl hrest
    simp only [ofEntries, hok, hrestOk, Except.ok.injEq] at hfound
    simp only [ofEntries, hok', hrestOk', Except.ok.injEq] at hfound'
    subst hfound hfound'
    refine .register register ?_ (ih hrest hrestOk hrestOk')
    rw [List.perm_ext_iff_of_nodup hnodup hnodup']
    exact fun block => Set.ext_iff.mp (hsites.unique hheads hsites') block

end Sites

end MinimalSsa
