import GalaxDb.Lib.Forest

/-!
# The union-find

Parents and ranks of the nodes below a bound. A find compresses the path it has climbed, which
changes no root; a union links two roots. Both end because the parents are a forest.
-/

namespace GalaxDb.Versioning

open Forest

structure UnionFind where
  parent : List Nat
  rank : List UInt8
  deriving DecidableEq

namespace UnionFind

def new (n : Nat) : UnionFind := ⟨List.range n, List.replicate n 0⟩

/-- `while self.parent[root] != root`; a node outside is a panic, and the fuel ends only in a
cycle. -/
def rootFrom (parent : List Nat) : Nat → Nat → Option Nat
  | 0, _ => none
  | fuel + 1, root =>
    match parent[root]? with
    | none => none
    | some up => if up = root then some root else rootFrom parent fuel up

/-- Every node on the way points at the root. -/
def compress (root : Nat) : Nat → List Nat → Nat → Option (List Nat)
  | 0, _, _ => none
  | fuel + 1, parent, cur =>
    match parent[cur]? with
    | none => none
    | some next =>
      if next = root then some parent else compress root fuel (parent.set cur root) next

def find (uf : UnionFind) (x : Nat) : Option (UnionFind × Nat) := do
  let root ← rootFrom uf.parent uf.parent.length x
  let parent ← compress root uf.parent.length uf.parent x
  some ({ uf with parent := parent }, root)

def union (uf : UnionFind) (a b : Nat) : Option UnionFind := do
  let (uf, ra) ← uf.find a
  let (uf, rb) ← uf.find b
  if ra = rb then some uf
  else
    let rankA ← uf.rank[ra]?
    let rankB ← uf.rank[rb]?
    match compare rankA rankB with
    | .lt => some { uf with parent := uf.parent.set ra rb }
    | .gt => some { uf with parent := uf.parent.set rb ra }
    -- the rank saturates
    | .eq => some ⟨uf.parent.set rb ra, uf.rank.set ra (if rankA = 255 then 255 else rankA + 1)⟩

section Searches

/-- A node outside is its own parent. -/
def up (parent : List Nat) (x : Nat) : Nat := parent.getD x x

variable {parent : List Nat} {x root d fuel : Nat}

theorem up_of_lt (inside : x < parent.length) : parent[x]? = some (up parent x) := by
  simp [up, inside]

theorem up_set (root : Nat) (inside : x < parent.length) :
    up (parent.set x root) = Function.update (up parent) x root := by
  funext y
  by_cases same : y = x
  · subst same
    simp [up, inside]
  · simp [up, same, Ne.symm same]

/-- Parents of nodes inside are inside. -/
def Inside (parent : List Nat) : Prop := ∀ x < parent.length, up parent x < parent.length

theorem Inside.set (inside : Inside parent) (root_in : root < parent.length) :
    Inside (parent.set x root) := by
  intro y y_in
  rw [List.length_set] at y_in ⊢
  by_cases x_in : x < parent.length
  · rw [up_set root x_in]
    by_cases same : y = x
    · rwa [same, Function.update_self]
    · rw [Function.update_of_ne same]
      exact inside y y_in
  · rw [List.set_eq_of_length_le (not_lt.mp x_in)]
    exact inside y y_in

theorem rootFrom_of_climbs (inside : Inside parent) (climbs : Climbs (up parent) d x root)
    (x_in : x < parent.length) (enough : d < fuel) : rootFrom parent fuel x = some root := by
  induction climbs generalizing fuel with
  | root fixed =>
    obtain ⟨fuel, rfl⟩ := Nat.exists_eq_succ_of_ne_zero enough.ne'
    simp [rootFrom, up_of_lt x_in, fixed]
  | step moves _ ih =>
    obtain ⟨fuel, rfl⟩ := Nat.exists_eq_succ_of_ne_zero (Nat.zero_lt_of_lt enough).ne'
    simp only [rootFrom, up_of_lt x_in, moves, ↓reduceIte]
    exact ih (inside _ x_in) (by omega)

/-- The same nodes with the same roots. -/
structure SameRoots (parent parent' : List Nat) : Prop where
  length : parent'.length = parent.length
  inside : Inside parent'
  grounded : Grounded (up parent')
  roots : ∀ y s, RootOf (up parent') y s ↔ RootOf (up parent) y s

theorem SameRoots.trans {parent' parent'' : List Nat} (h : SameRoots parent parent')
    (h' : SameRoots parent' parent'') : SameRoots parent parent'' where
  length := h'.length.trans h.length
  inside := h'.inside
  grounded := h'.grounded
  roots y s := (h'.roots y s).trans (h.roots y s)

theorem compress_of_climbs (inside : Inside parent) (grounded : Grounded (up parent))
    (climbs : Climbs (up parent) d x root) (x_in : x < parent.length)
    (root_in : root < parent.length) (enough : d < fuel) :
    ∃ parent', compress root fuel parent x = some parent' ∧ SameRoots parent parent' := by
  induction fuel generalizing parent x d with
  | zero => omega
  | succ fuel ih =>
    have here : SameRoots parent parent := ⟨rfl, inside, grounded, fun _ _ => Iff.rfl⟩
    simp only [compress, up_of_lt x_in]
    split
    · exact ⟨parent, rfl, here⟩
    · next further =>
      cases climbs with
      | root fixed => exact absurd fixed further
      | @step d _ _ moves rest =>
        have below : RootOf (up parent) x root := ⟨_, .step moves rest⟩
        have eq := up_set root x_in
        have now : SameRoots parent (parent.set x root) := by
          refine ⟨List.length_set, inside.set root_in, ?_, ?_⟩
          · rw [eq]
            exact grounded_redirect grounded below
          · intro y s
            rw [eq]
            exact rootOf_redirect grounded below
        obtain ⟨e, le, climbs⟩ := rest.redirect below
        obtain ⟨parent', done, same⟩ := ih now.inside now.grounded (x := up parent x) (d := e)
          (by rwa [eq]) (now.length ▸ inside x x_in) (now.length ▸ root_in) (by omega)
        exact ⟨parent', done, now.trans same⟩

end Searches

section Operations

/-- The nodes below `n` in a forest, with their ranks. -/
structure WellFormed (uf : UnionFind) (n : Nat) : Prop where
  length : uf.parent.length = n
  ranks : uf.rank.length = n
  inside : Inside uf.parent
  grounded : Grounded (up uf.parent)

/-- In one component. -/
def Same (uf : UnionFind) (x y : Nat) : Prop := SameTree (up uf.parent) x y

variable {uf : UnionFind} {n x y a b : Nat}

theorem up_new : up (new n).parent = id := by
  funext x
  by_cases x_in : x < n <;> simp [up, new, x_in]

theorem wellFormed_new (n : Nat) : (new n).WellFormed n where
  length := by simp [new]
  ranks := by simp [new]
  inside := by
    intro x x_in
    rwa [up_new]
  grounded x := by
    rw [up_new]
    exact ⟨x, rootOf_self rfl⟩

theorem same_new : (new n).Same x y ↔ x = y := by
  rw [Same, up_new]
  exact sameTree_iff (rootOf_self rfl) (rootOf_self rfl)

/-- A find gives the root and keeps all roots. -/
theorem find_spec (wf : uf.WellFormed n) (x_in : x < n) : ∃ uf' root,
    uf.find x = some (uf', root) ∧ uf'.WellFormed n ∧ root < n ∧
      RootOf (up uf.parent) x root ∧ SameRoots uf.parent uf'.parent := by
  obtain ⟨length, ranks, inside, grounded⟩ := wf
  obtain ⟨root, d, climbs⟩ := grounded x
  subst length
  have closed : ∀ y ∈ Finset.range uf.parent.length,
      up uf.parent y ∈ Finset.range uf.parent.length := by
    simpa only [Finset.mem_range, Inside] using inside
  have enough : d < uf.parent.length := by
    have bound := climbs.depth_lt closed (Finset.mem_range.mpr x_in)
    rwa [Finset.card_range] at bound
  have root_in : root < uf.parent.length :=
    climbs.closed (S := fun y => y < uf.parent.length) inside x_in
  obtain ⟨parent', compressed, same⟩ :=
    compress_of_climbs inside grounded climbs x_in root_in enough
  refine ⟨{ uf with parent := parent' }, root, ?_, ?_, root_in, ⟨d, climbs⟩, same⟩
  · simp [find, rootFrom_of_climbs inside climbs x_in enough, compressed]
  · exact ⟨same.length, ranks, same.inside, same.grounded⟩

theorem SameRoots.same {uf' : UnionFind} (h : SameRoots uf.parent uf'.parent) :
    uf'.Same x y ↔ uf.Same x y := sameTree_congr h.roots

/-- Two finds tell whether the nodes are in one component. -/
theorem find_find (wf : uf.WellFormed n) (a_in : a < n) (b_in : b < n) : ∃ uf' uf'' ra rb,
    uf.find a = some (uf', ra) ∧ uf'.find b = some (uf'', rb) ∧ uf''.WellFormed n ∧
      ra < n ∧ rb < n ∧ RootOf (up uf''.parent) a ra ∧ RootOf (up uf''.parent) b rb ∧
        SameRoots uf.parent uf''.parent := by
  obtain ⟨uf', ra, found, wf', ra_in, root_a, same⟩ := find_spec wf a_in
  obtain ⟨uf'', rb, found', wf'', rb_in, root_b, same'⟩ := find_spec wf' b_in
  refine ⟨uf', uf'', ra, rb, found, found', wf'', ra_in, rb_in, ?_, ?_, same.trans same'⟩
  · exact ((same.trans same').roots a ra).mpr root_a
  · exact (same'.roots b rb).mpr root_b

/-- The link of two roots, either way round. -/
theorem link_spec {ra rb c p : Nat} {rank : List UInt8} (wf : uf.WellFormed n)
    (root_a : RootOf (up uf.parent) a ra) (root_b : RootOf (up uf.parent) b rb) (apart : ra ≠ rb)
    (ra_in : ra < n) (rb_in : rb < n) (either : c = ra ∧ p = rb ∨ c = rb ∧ p = ra)
    (ranks : rank.length = n) :
    WellFormed ⟨uf.parent.set c p, rank⟩ n ∧ ∀ x y, Same ⟨uf.parent.set c p, rank⟩ x y ↔
      uf.Same x y ∨ (uf.Same x a ∨ uf.Same x b) ∧ (uf.Same y a ∨ uf.Same y b) := by
  obtain ⟨length, -, inside, grounded⟩ := wf
  have c_in : c < uf.parent.length := by
    rcases either with ⟨rfl, -⟩ | ⟨rfl, -⟩ <;> omega
  have p_in : p < uf.parent.length := by
    rcases either with ⟨-, rfl⟩ | ⟨-, rfl⟩ <;> omega
  have fixed_c : up uf.parent c = c := by
    rcases either with ⟨rfl, -⟩ | ⟨rfl, -⟩
    · exact root_a.fixed
    · exact root_b.fixed
  have fixed_p : up uf.parent p = p := by
    rcases either with ⟨-, rfl⟩ | ⟨-, rfl⟩
    · exact root_b.fixed
    · exact root_a.fixed
  have differ : c ≠ p := by
    rcases either with ⟨rfl, rfl⟩ | ⟨rfl, rfl⟩
    · exact apart
    · exact apart.symm
  have eq := up_set p c_in
  refine ⟨⟨by simpa using length, ranks, inside.set p_in, ?_⟩, ?_⟩
  · rw [eq]
    exact grounded_link grounded fixed_c fixed_p differ
  · intro x y
    have at_a : ∀ z, uf.Same z a ↔ SameTree (up uf.parent) z ra := fun z =>
      ⟨fun h => h.trans ⟨ra, root_a, rootOf_self root_a.fixed⟩,
        fun h => h.trans ⟨ra, rootOf_self root_a.fixed, root_a⟩⟩
    have at_b : ∀ z, uf.Same z b ↔ SameTree (up uf.parent) z rb := fun z =>
      ⟨fun h => h.trans ⟨rb, root_b, rootOf_self root_b.fixed⟩,
        fun h => h.trans ⟨rb, rootOf_self root_b.fixed, root_b⟩⟩
    rw [Same, eq, sameTree_link grounded fixed_c fixed_p differ, at_a, at_a, at_b, at_b, Same]
    rcases either with ⟨rfl, rfl⟩ | ⟨rfl, rfl⟩
    · exact Iff.rfl
    · rw [or_comm (a := SameTree _ x c), or_comm (a := SameTree _ y c)]

/-- A union merges the components of its two nodes and no others. -/
theorem union_spec (wf : uf.WellFormed n) (a_in : a < n) (b_in : b < n) : ∃ uf',
    uf.union a b = some uf' ∧ uf'.WellFormed n ∧ ∀ x y, uf'.Same x y ↔
      uf.Same x y ∨ (uf.Same x a ∨ uf.Same x b) ∧ (uf.Same y a ∨ uf.Same y b) := by
  obtain ⟨uf', now, ra, rb, found, found', wf', ra_in, rb_in, root_a, root_b, same⟩ :=
    find_find wf a_in b_in
  obtain ⟨rankA, rank_a⟩ : ∃ rank, now.rank[ra]? = some rank :=
    ⟨_, List.getElem?_eq_getElem (wf'.ranks ▸ ra_in)⟩
  obtain ⟨rankB, rank_b⟩ : ∃ rank, now.rank[rb]? = some rank :=
    ⟨_, List.getElem?_eq_getElem (wf'.ranks ▸ rb_in)⟩
  simp only [union, found, found', Option.bind_eq_bind, Option.bind_some, rank_a, rank_b,
    ← same.same]
  by_cases merged : ra = rb
  · subst merged
    refine ⟨now, by rw [if_pos rfl], wf', fun x y => ?_⟩
    have both : now.Same a b := ⟨ra, root_a, root_b⟩
    constructor
    · exact .inl
    · rintro (h | ⟨hx, hy⟩)
      · exact h
      · have at_a : now.Same x a := hx.elim id fun h => h.trans both.symm
        exact at_a.trans (hy.elim SameTree.symm fun h => both.trans h.symm)
  · rw [if_neg merged]
    split
    · refine ⟨_, rfl, link_spec wf' root_a root_b merged ra_in rb_in (.inl ⟨rfl, rfl⟩) wf'.ranks⟩
    · refine ⟨_, rfl, link_spec wf' root_a root_b merged ra_in rb_in (.inr ⟨rfl, rfl⟩) wf'.ranks⟩
    · refine ⟨_, rfl, link_spec wf' root_a root_b merged ra_in rb_in (.inr ⟨rfl, rfl⟩) ?_⟩
      rw [List.length_set, wf'.ranks]

end Operations

end UnionFind

end GalaxDb.Versioning
