import RivetDB.Order.Tiling
import Mathlib.Data.List.Nodup
import Mathlib.Data.List.Perm.Subperm

/-!
# Searching a binary forest

A forest is given by what each node shows: a leaf, two children, or nothing.  `Grows`
describes the finite tree below a node.  `search` goes through such trees breadth first
under a limit on the depth and one on the size, and refuses to meet a node twice; it
succeeds exactly when every node of its queue grows a tree within the limits.

A chart gives every node a set, so that a node with children is tiled by them.  The
leaves below a node then tile its set, and no node occurs twice.
-/

namespace RivetDB.Forest

open List

/-- What a node shows. -/
inductive View (δ ρ : Type*) where
  | leaf (d : δ)
  | fork (left right : ρ)
  | bare

/-- The same view with other leaves. -/
def View.map {δ ρ : Type*} (f : δ → δ) : View δ ρ → View δ ρ
  | .leaf d => .leaf (f d)
  | .fork a b => .fork a b
  | .bare => .bare

/-- Why a search stops. -/
inductive Halt where
  | depth
  | cycle
  | bare
  | size
  | fuel

variable {δ ρ κ : Type*} (view : ρ → View δ ρ)

/-- The tree below a node of height at most the first argument, with its nodes and its
leaves. -/
inductive Grows : ℕ → ρ → List ρ → List δ → Prop
  | leaf {height : ℕ} {r : ρ} {d : δ} (hview : view r = .leaf d) : Grows height r [r] [d]
  | fork {height : ℕ} {r a b : ρ} {na nb : List ρ} {la lb : List δ}
      (hview : view r = .fork a b) (hleft : Grows height a na la)
      (hright : Grows height b nb lb) : Grows (height + 1) r (r :: (na ++ nb)) (la ++ lb)

/-- Breadth-first search from a queue of nodes with their depths. -/
def search [DecidableEq ρ] (maxDepth maxSize : ℕ) :
    ℕ → List (ρ × ℕ) → List ρ → List δ → Except Halt (List δ)
  | _, [], _, result => .ok result
  | 0, _ :: _, _, _ => .error .fuel
  | fuel + 1, (r, depth) :: queue, seen, result =>
    if depth > maxDepth then .error .depth
    else if r ∈ seen then .error .cycle
    else
      match view r with
      | .leaf d => search maxDepth maxSize fuel queue (r :: seen) (result ++ [d])
      | .bare => .error .bare
      | .fork a b =>
        if queue.length + 2 + result.length > maxSize then .error .size
        else
          search maxDepth maxSize fuel (queue ++ [(a, depth + 1), (b, depth + 1)])
            (r :: seen) result

variable {view}

namespace Grows

variable {height : ℕ} {r : ρ} {nodes : List ρ} {leaves : List δ} {height' : ℕ}

section

variable (h : Grows view height r nodes leaves)

include h

theorem mono (hle : height ≤ height') :
    Grows view height' r nodes leaves := by
  induction h generalizing height' with
  | leaf hview => exact .leaf hview
  | fork hview _ _ ihl ihr =>
    obtain ⟨k, rfl⟩ := Nat.exists_eq_add_of_le' (Nat.one_le_of_lt (Nat.lt_of_succ_le hle))
    exact .fork hview (ihl (Nat.le_of_succ_le_succ hle)) (ihr (Nat.le_of_succ_le_succ hle))

theorem self_mem : r ∈ nodes := by
  cases h <;> exact mem_cons_self

theorem root_ne_bare : view r ≠ .bare := by
  cases h with
  | leaf hview => simp [hview]
  | fork hview => simp [hview]

theorem leaves_ne_nil : leaves ≠ [] := by
  induction h with
  | leaf => exact cons_ne_nil _ _
  | fork _ _ _ ihl _ => exact append_ne_nil_of_left_ne_nil ihl _

/-- A tree does not depend on the bound for its height. -/
theorem unique {nodes' : List ρ} {leaves' : List δ} (h' : Grows view height' r nodes' leaves') :
    nodes = nodes' ∧ leaves = leaves' := by
  induction h generalizing height' nodes' leaves' with
  | leaf hview =>
    cases h' with
    | leaf hview' =>
      rw [hview] at hview'
      cases hview'
      exact ⟨rfl, rfl⟩
    | fork hview' => rw [hview] at hview'; cases hview'
  | fork hview _ _ ihl ihr =>
    cases h' with
    | leaf hview' => rw [hview] at hview'; cases hview'
    | fork hview' hl hr =>
      rw [hview] at hview'
      cases hview'
      obtain ⟨rfl, rfl⟩ := ihl hl
      obtain ⟨rfl, rfl⟩ := ihr hr
      exact ⟨rfl, rfl⟩

end

variable {x : ρ}

/-- Every node of a tree has its own tree. -/
theorem subtree (h : Grows view height r nodes leaves) (hx : x ∈ nodes) :
    ∃ nodes' leaves', Grows view height x nodes' leaves' ∧ nodes' ⊆ nodes ∧ leaves' ⊆ leaves := by
  induction h with
  | leaf hview =>
    obtain rfl := mem_singleton.mp hx
    exact ⟨_, _, .leaf hview, List.Subset.refl _, List.Subset.refl _⟩
  | fork hview hl hr ihl ihr =>
    rcases mem_cons.mp hx with rfl | hx
    · exact ⟨_, _, .fork hview hl hr, List.Subset.refl _, List.Subset.refl _⟩
    rcases mem_append.mp hx with hx | hx
    · obtain ⟨ns, ls, hgrows, hns, hls⟩ := ihl hx
      exact ⟨ns, ls, hgrows.mono (Nat.le_succ _),
        fun y hy => mem_cons_of_mem _ (mem_append_left _ (hns hy)),
        fun y hy => mem_append_left _ (hls hy)⟩
    · obtain ⟨ns, ls, hgrows, hns, hls⟩ := ihr hx
      exact ⟨ns, ls, hgrows.mono (Nat.le_succ _),
        fun y hy => mem_cons_of_mem _ (mem_append_right _ (hns hy)),
        fun y hy => mem_append_right _ (hls hy)⟩

/-- Every node but the root is a child of a node. -/
theorem child (h : Grows view height r nodes leaves) (hx : x ∈ nodes) :
    x = r ∨ ∃ y ∈ nodes, ∃ a b, view y = .fork a b ∧ (x = a ∨ x = b) := by
  induction h with
  | leaf => exact .inl (mem_singleton.mp hx)
  | fork hview _ _ ihl ihr =>
    rcases mem_cons.mp hx with rfl | hx
    · exact .inl rfl
    refine .inr ?_
    rcases mem_append.mp hx with hx | hx
    · rcases ihl hx with rfl | ⟨y, hy, hfork⟩
      · exact ⟨_, mem_cons_self, _, _, hview, .inl rfl⟩
      · exact ⟨y, mem_cons_of_mem _ (mem_append_left _ hy), hfork⟩
    · rcases ihr hx with rfl | ⟨y, hy, hfork⟩
      · exact ⟨_, mem_cons_self, _, _, hview, .inr rfl⟩
      · exact ⟨y, mem_cons_of_mem _ (mem_append_right _ hy), hfork⟩

variable {view' : ρ → View δ ρ}

/-- A view that agrees on the nodes of a tree up to the leaves grows the same tree. -/
theorem map {f : δ → δ} (h : Grows view height r nodes leaves)
    (hview : ∀ x ∈ nodes, view' x = (view x).map f) :
    Grows view' height r nodes (leaves.map f) := by
  induction h with
  | leaf hleaf =>
    refine .leaf ?_
    rw [hview _ (mem_singleton_self _), hleaf]
    rfl
  | fork hfork _ _ ihl ihr =>
    rw [map_append]
    refine .fork ?_ (ihl fun x hx => hview x (mem_cons_of_mem _ (mem_append_left _ hx)))
      (ihr fun x hx => hview x (mem_cons_of_mem _ (mem_append_right _ hx)))
    rw [hview _ mem_cons_self, hfork]
    rfl

/-- Each leaf belongs to a node of the tree that shows it. -/
theorem leaf_shown (h : Grows view height r nodes leaves) {d : δ} (hd : d ∈ leaves) :
    ∃ x ∈ nodes, view x = .leaf d := by
  induction h with
  | leaf hview =>
    obtain rfl := mem_singleton.mp hd
    exact ⟨_, mem_singleton_self _, hview⟩
  | fork _ _ _ ihl ihr =>
    rcases mem_append.mp hd with hd | hd
    · obtain ⟨x, hx, hview⟩ := ihl hd
      exact ⟨x, mem_cons_of_mem _ (mem_append_left _ hx), hview⟩
    · obtain ⟨x, hx, hview⟩ := ihr hd
      exact ⟨x, mem_cons_of_mem _ (mem_append_right _ hx), hview⟩

end Grows

/-- Whether a node has children. -/
def isFork : View δ ρ → Bool
  | .fork _ _ => true
  | _ => false

variable {height : ℕ} {r : ρ} {nodes : List ρ} {leaves : List δ}

/-- A binary tree has one leaf more than it has inner nodes. -/
theorem Grows.length_nodes (h : Grows view height r nodes leaves) :
    nodes.length = 2 * nodes.countP (fun x => isFork (view x)) + 1 := by
  induction h with
  | leaf hview => simp [isFork, hview]
  | fork hview _ _ ihl ihr =>
    simp only [length_cons, length_append, countP_cons, countP_append,
      hview, isFork, if_true, ihl, ihr]
    omega

/-! ### Growing a leaf -/

/-- A way down of the given length. -/
inductive Path (view : ρ → View δ ρ) : ℕ → ρ → ρ → Prop
  | refl (r : ρ) : Path view 0 r r
  | left {k : ℕ} {r a b x : ρ} (hview : view r = .fork a b) (hpath : Path view k a x) :
      Path view (k + 1) r x
  | right {k : ℕ} {r a b x : ρ} (hview : view r = .fork a b) (hpath : Path view k b x) :
      Path view (k + 1) r x

variable {view' : ρ → View δ ρ}

/-- When a leaf `x` gets two leaves as its children, the tree keeps within its height
exactly when `x` was above it. -/
theorem Grows.graft {r x a b : ρ} {da db dx : δ} (h : Grows view height r nodes leaves)
    (hother : ∀ y ∈ nodes, y ≠ x → view' y = view y) (hleaf : view x = .leaf dx)
    (hx : view' x = .fork a b) (ha : view' a = .leaf da) (hb : view' b = .leaf db) :
    (∃ nodes' leaves', Grows view' height r nodes' leaves') ↔
      ∀ k, Path view k r x → k < height := by
  induction h with
  | @leaf height r d hview =>
    by_cases hrx : r = x
    · subst hrx
      constructor
      · rintro ⟨nodes', leaves', hgrows⟩ k hpath
        cases hpath with
        | refl =>
          cases hgrows with
          | leaf hview' => rw [hx] at hview'; cases hview'
          | fork => exact Nat.succ_pos _
        | left hview' => rw [hview] at hview'; cases hview'
        | right hview' => rw [hview] at hview'; cases hview'
      · intro hdepth
        obtain ⟨k, rfl⟩ := Nat.exists_eq_add_of_le' (hdepth 0 (.refl r))
        exact ⟨_, _, .fork hx (.leaf ha) (.leaf hb)⟩
    · constructor
      · rintro - k hpath
        cases hpath with
        | refl => exact absurd rfl hrx
        | left hview' => rw [hview] at hview'; cases hview'
        | right hview' => rw [hview] at hview'; cases hview'
      · intro _
        refine ⟨_, _, .leaf (d := d) ?_⟩
        rw [hother r (mem_singleton_self _) hrx, hview]
  | @fork height r p q na nb la lb hview _ _ ihl ihr =>
    have hrx : r ≠ x := by
      rintro rfl
      rw [hleaf] at hview
      cases hview
    have hview' : view' r = .fork p q := by
      rw [hother r mem_cons_self hrx, hview]
    specialize ihl fun y hy =>
      hother y (mem_cons_of_mem _ (mem_append_left _ hy))
    specialize ihr fun y hy =>
      hother y (mem_cons_of_mem _ (mem_append_right _ hy))
    constructor
    · rintro ⟨nodes', leaves', hgrows⟩ k hpath
      cases hgrows with
      | leaf hleaf' => rw [hview'] at hleaf'; cases hleaf'
      | fork hfork hl hr =>
        rw [hview'] at hfork
        cases hfork
        cases hpath with
        | refl => exact absurd rfl hrx
        | left hdown hpath =>
          rw [hview] at hdown
          cases hdown
          exact Nat.succ_lt_succ (ihl.mp ⟨_, _, hl⟩ _ hpath)
        | right hdown hpath =>
          rw [hview] at hdown
          cases hdown
          exact Nat.succ_lt_succ (ihr.mp ⟨_, _, hr⟩ _ hpath)
    · intro hdepth
      obtain ⟨_, _, hl⟩ := ihl.mpr fun k hpath =>
        Nat.lt_of_succ_lt_succ (hdepth _ (.left hview hpath))
      obtain ⟨_, _, hr⟩ := ihr.mpr fun k hpath =>
        Nat.lt_of_succ_lt_succ (hdepth _ (.right hview hpath))
      exact ⟨_, _, .fork hview' hl hr⟩

/-! ### The search -/

/-- A node of the queue with its tree. -/
structure Tree (ρ δ : Type*) where
  root : ρ
  depth : ℕ
  nodes : List ρ
  leaves : List δ

variable {trees : List (Tree ρ δ)}

theorem length_le_flatMap_leaves
    (h : ∀ t ∈ trees, t.leaves ≠ []) : trees.length ≤ (trees.flatMap Tree.leaves).length := by
  induction trees with
  | nil => exact Nat.le_refl _
  | cons t trees ih =>
    have hpos := length_pos_iff.mpr (h t mem_cons_self)
    have hrest := ih fun x hx => h x (mem_cons_of_mem _ hx)
    rw [flatMap_cons, length_append, length_cons]
    omega

section Search

variable [DecidableEq ρ] {maxDepth maxSize : ℕ} {fuel : ℕ} {queue : List (ρ × ℕ)}

/-- What a successful search went through. -/
theorem grows_of_search {seen : List ρ} {result found : List δ}
    (h : search view maxDepth maxSize fuel queue seen result = .ok found) :
    ∀ q ∈ queue, q.2 ≤ maxDepth ∧ ∃ nodes leaves, Grows view (maxDepth - q.2) q.1 nodes leaves := by
  induction fuel generalizing queue seen result with
  | zero =>
    cases queue with
    | nil => simp
    | cons q queue => cases h
  | succ fuel ih =>
    rcases queue with - | ⟨⟨r, depth⟩, queue⟩
    · simp
    unfold search at h
    split at h
    · cases h
    rename_i hdepth
    split at h
    · cases h
    rw [forall_mem_cons]
    split at h
    · rename_i d hview
      exact ⟨⟨Nat.not_lt.mp hdepth, _, _, .leaf hview⟩, ih h⟩
    · cases h
    · rename_i a b hview
      split at h
      · cases h
      have hall := ih h
      obtain ⟨hle, na, la, hleft⟩ := hall (a, depth + 1) (by simp)
      obtain ⟨-, nb, lb, hright⟩ := hall (b, depth + 1) (by simp)
      refine ⟨⟨Nat.not_lt.mp hdepth, r :: (na ++ nb), la ++ lb, ?_⟩,
        fun q hq => hall q (mem_append_left _ hq)⟩
      have hheight : maxDepth - depth = maxDepth - (depth + 1) + 1 := by
        omega
      rw [hheight]
      exact .fork hview hleft hright

/-- **A search succeeds** when its queue grows trees within the limits that share no
node, and returns their leaves. -/
theorem search_ok {fuel : ℕ} {trees : List (Tree ρ δ)} {seen : List ρ} {result : List δ}
    (hgrows : ∀ t ∈ trees, t.depth ≤ maxDepth ∧
      Grows view (maxDepth - t.depth) t.root t.nodes t.leaves)
    (hnodup : (trees.flatMap Tree.nodes ++ seen).Nodup)
    (hfuel : (trees.flatMap Tree.nodes).length ≤ fuel)
    (hsize : (trees.flatMap Tree.leaves).length + result.length ≤ maxSize) :
    ∃ found, search view maxDepth maxSize fuel (trees.map fun t => (t.root, t.depth)) seen
        result = .ok found ∧ found.Perm (result ++ trees.flatMap Tree.leaves) := by
  induction fuel generalizing trees seen result with
  | zero =>
    rcases trees with - | ⟨t, trees⟩
    · exact ⟨result, rfl, by simp⟩
    · have hroot := (hgrows t mem_cons_self).2.self_mem
      have hpos := length_pos_of_mem hroot
      rw [flatMap_cons, length_append] at hfuel
      omega
  | succ fuel ih =>
    rcases trees with - | ⟨⟨r, depth, nodes, leaves⟩, trees⟩
    · exact ⟨result, rfl, by simp⟩
    obtain ⟨hdepth, htree⟩ := hgrows _ mem_cons_self
    have hrest : ∀ t ∈ trees, t.depth ≤ maxDepth ∧
        Grows view (maxDepth - t.depth) t.root t.nodes t.leaves :=
      fun t ht => hgrows t (mem_cons_of_mem _ ht)
    simp only [flatMap_cons] at hnodup hfuel hsize ⊢
    simp only at hdepth htree
    have hseen : r ∉ seen := fun hr =>
      disjoint_of_nodup_append hnodup (mem_append_left _ htree.self_mem) hr
    rw [map_cons]
    unfold search
    rw [if_neg (Nat.not_lt.mpr hdepth), if_neg hseen]
    generalize hheight : maxDepth - depth = height at htree
    cases htree with
    | leaf hview =>
      rename_i d
      simp only [hview]
      have hnodup' : (trees.flatMap Tree.nodes ++ r :: seen).Nodup :=
        (perm_middle.nodup_iff).mpr hnodup
      have hfuel' : (trees.flatMap Tree.nodes).length ≤ fuel := by
        simp only [length_append, length_singleton] at hfuel
        omega
      have hsize' : (trees.flatMap Tree.leaves).length + (result ++ [d]).length ≤ maxSize := by
        simp only [length_append, length_singleton] at hsize ⊢
        omega
      obtain ⟨found, hfound, hperm⟩ := ih hrest hnodup' hfuel' hsize'
      exact ⟨found, hfound, by simpa using hperm⟩
    | fork hview hleft hright =>
      rename_i height a b na nb la lb
      have hcount : trees.length + 2 ≤ (la ++ lb ++ trees.flatMap Tree.leaves).length := by
        have hlen := length_le_flatMap_leaves fun t ht => (hrest t ht).2.leaves_ne_nil
        have hla := length_pos_iff.mpr hleft.leaves_ne_nil
        have hlb := length_pos_iff.mpr hright.leaves_ne_nil
        simp only [length_append]
        omega
      simp only [hview]
      rw [if_neg (by simp only [length_map]; omega)]
      -- the queue of the next round: the rest, then the two children
      set trees' : List (Tree ρ δ) :=
        trees ++ [⟨a, depth + 1, na, la⟩, ⟨b, depth + 1, nb, lb⟩] with htrees'
      have hnodes : trees'.flatMap Tree.nodes = trees.flatMap Tree.nodes ++ (na ++ nb) := by
        simp [htrees']
      have hleaves : trees'.flatMap Tree.leaves = trees.flatMap Tree.leaves ++ (la ++ lb) := by
        simp [htrees']
      have hchild : maxDepth - (depth + 1) = height := by omega
      have hgrows' : ∀ t ∈ trees', t.depth ≤ maxDepth ∧
          Grows view (maxDepth - t.depth) t.root t.nodes t.leaves := by
        intro t ht
        rcases mem_append.mp ht with ht | ht
        · exact hrest t ht
        · rcases mem_pair.mp ht with rfl | rfl
          · exact ⟨by simp only; omega, by simpa only [hchild] using hleft⟩
          · exact ⟨by simp only; omega, by simpa only [hchild] using hright⟩
      have hnodup' : (trees'.flatMap Tree.nodes ++ r :: seen).Nodup := by
        rw [hnodes]
        refine (Perm.nodup_iff ?_).mpr hnodup
        exact perm_middle.trans (List.Perm.cons r (Perm.append_right seen perm_append_comm))
      have hfuel' : (trees'.flatMap Tree.nodes).length ≤ fuel := by
        rw [hnodes]
        simp only [length_append, length_cons] at hfuel ⊢
        omega
      have hsize' : (trees'.flatMap Tree.leaves).length + result.length ≤ maxSize := by
        rw [hleaves]
        simp only [length_append] at hsize ⊢
        omega
      obtain ⟨found, hfound, hperm⟩ := ih hgrows' hnodup' hfuel' hsize'
      refine ⟨found, by simpa [htrees'] using hfound, hperm.trans ?_⟩
      rw [hleaves]
      exact Perm.append_left _ perm_append_comm

variable {r : ρ} {nodes : List ρ} {leaves : List δ}

theorem search_root_ok (hgrows : Grows view maxDepth r nodes leaves) (hnodup : nodes.Nodup)
    (hfuel : nodes.length ≤ fuel) (hsize : leaves.length ≤ maxSize) :
    ∃ found, search view maxDepth maxSize fuel [(r, 0)] [] [] = .ok found ∧
      found.Perm leaves := by
  have htree : ∀ t ∈ [(⟨r, 0, nodes, leaves⟩ : Tree ρ δ)], t.depth ≤ maxDepth ∧
      Grows view (maxDepth - t.depth) t.root t.nodes t.leaves := by
    intro t ht
    obtain rfl := mem_singleton.mp ht
    exact ⟨Nat.zero_le _, hgrows⟩
  have hfound := @search_ok δ ρ view _ maxDepth maxSize fuel _ [] [] htree (by simpa using hnodup)
    (by simpa using hfuel) (by simpa using hsize)
  simpa using hfound

end Search

/-! ### Charts -/

/-- Every node has a set: a leaf its own, which is not empty, and a node with children
the disjoint union of theirs. -/
structure Chart (view : ρ → View δ ρ) (span : δ → Set κ) (chart : ρ → Set κ) : Prop where
  leaf : ∀ {r d}, view r = .leaf d → chart r = span d ∧ (span d).Nonempty
  fork : ∀ {r a b}, view r = .fork a b →
    chart r = chart a ∪ chart b ∧ Disjoint (chart a) (chart b)

namespace Chart

variable {span : δ → Set κ} {chart : ρ → Set κ} {height : ℕ} {r : ρ} {nodes : List ρ}
  {leaves : List δ}

section

variable (h : Chart view span chart) (hgrows : Grows view height r nodes leaves)

include h hgrows

theorem tiles : Tiles span (chart r) leaves := by
  induction hgrows with
  | leaf hview =>
    rw [(h.leaf hview).1]
    exact Tiles.single _
  | fork hview _ _ ihl ihr =>
    obtain ⟨hunion, hdisjoint⟩ := h.fork hview
    rw [hunion]
    exact ihl.append ihr hdisjoint

theorem nonempty : (chart r).Nonempty := by
  induction hgrows with
  | leaf hview =>
    rw [(h.leaf hview).1]
    exact (h.leaf hview).2
  | fork hview _ _ ihl _ =>
    rw [(h.fork hview).1]
    exact ihl.inl

theorem subset {x : ρ} (hx : x ∈ nodes) : chart x ⊆ chart r := by
  induction hgrows with
  | leaf =>
    rw [mem_singleton.mp hx]
  | fork hview _ _ ihl ihr =>
    rcases mem_cons.mp hx with rfl | hx
    · exact Set.Subset.refl _
    rw [(h.fork hview).1]
    rcases mem_append.mp hx with hx | hx
    · exact (ihl hx).trans Set.subset_union_left
    · exact (ihr hx).trans Set.subset_union_right

/-- No node occurs twice: two subtrees that share a node would share a point. -/
theorem nodup :
    nodes.Nodup := by
  induction hgrows with
  | leaf => exact nodup_singleton _
  | fork hview hleft hright ihl ihr =>
    obtain ⟨hunion, hdisjoint⟩ := h.fork hview
    refine nodup_cons.mpr ⟨fun hmem => ?_, nodup_append.mpr ⟨ihl, ihr, ?_⟩⟩
    · rcases mem_append.mp hmem with hmem | hmem
      · have hsub := h.subset hleft hmem
        rw [hunion] at hsub
        obtain ⟨k, hk⟩ := h.nonempty hright
        exact Set.disjoint_left.mp hdisjoint (hsub (.inr hk)) hk
      · have hsub := h.subset hright hmem
        rw [hunion] at hsub
        obtain ⟨k, hk⟩ := h.nonempty hleft
        exact Set.disjoint_left.mp hdisjoint hk (hsub (.inl hk))
    · intro x hx y hy hxy
      subst hxy
      obtain ⟨ns, ls, hgrows, -⟩ := hleft.subtree hx
      obtain ⟨k, hk⟩ := h.nonempty hgrows
      exact Set.disjoint_left.mp hdisjoint (h.subset hleft hx hk) (h.subset hright hy hk)

theorem leaves_nodup : leaves.Nodup := by
  refine (h.tiles hgrows).disjoint.imp_of_mem fun {p q} hp _ hpq heq => ?_
  obtain ⟨x, -, hview⟩ := hgrows.leaf_shown hp
  obtain ⟨k, hk⟩ := (h.leaf hview).2
  exact Set.disjoint_left.mp hpq hk (heq ▸ hk)

end

end Chart

end RivetDB.Forest
