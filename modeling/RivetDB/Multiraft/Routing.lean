import RivetDB.Multiraft.ReadBack
import RivetDB.Multiraft.Cutover
import RivetDB.Multiraft.Node
import RivetDB.Order.Search

/-!
# Routing by the catalog, and its canonical form

`NewCatalog` sorts the ranges by their start and compares neighbours only; `Lookup` searches for the
first range that ends above the key.  Both rest on one fact: in an accepted catalog every range
precedes all later ones (`Catalog.WellFormed.ordered`), so ends grow along the list, no two ranges
start at the same place, and there is one way to sort them.

* `searchLookup` — `Lookup` with the binary search of the source.
* `WellFormed.holders_le_one`, `Acceptable.holders_eq_one` — how many ranges hold a key.
* `Bootstrap.Reorders` — two bootstraps that list the same things; `Acceptable.arrange_unique`
  says that whatever a sort does with equal elements, the catalog is the same.
-/

namespace RivetDB.Multiraft

open List RangeDescriptor

variable {b b' : Bootstrap} {c : Catalog} {key : Bytes}

/-! ### Looking up a key -/

/-- The range ends above the key: the predicate `Lookup` searches with. -/
def RangeDescriptor.endsAbove (key : Bytes) (d : RangeDescriptor) : Bool :=
  d.endKey.unbounded || key < d.endKey.key

namespace Catalog

/-- `Lookup`, with `sort.Search` as it runs.  The search does not ask beyond the last range. -/
def searchLookup (c : Catalog) (key : Bytes) : Except Error RangeDescriptor :=
  match c.ranges[Search.search (fun index => c.ranges[index]?.all (·.endsAbove key))
      c.ranges.length]? with
  | none => .error .rangeNotFound
  | some d => if d.contains key then .ok d else .error .rangeNotFound

/-- The ranges that hold a key. -/
def holders (c : Catalog) (key : Bytes) : List RangeDescriptor := c.ranges.filter (·.contains key)

end Catalog

open scoped ByteOrder

namespace Catalog

/-- Ends grow along the ranges: all but the last are bounded, and by the start of the next. -/
theorem WellFormed.endsAbove_mono (h : c.WellFormed) {i j : ℕ} (hij : i ≤ j)
    (hi : c.ranges[i]?.all (·.endsAbove key) = true) :
    c.ranges[j]?.all (·.endsAbove key) = true := by
  rcases hij.eq_or_lt with rfl | hlt
  · exact hi
  rcases hj : c.ranges[j]? with - | d
  · rfl
  obtain ⟨hjlen, rfl⟩ := List.getElem?_eq_some_iff.mp hj
  have hilen : i < c.ranges.length := hlt.trans hjlen
  have hprecedes : Precedes c.ranges[i] c.ranges[j] :=
    List.pairwise_iff_getElem.mp h.ordered i j hilen hjlen hlt
  rw [getElem?_eq_getElem hilen, Option.all_some] at hi
  simp only [endsAbove, hprecedes.finish, Bool.false_or, decide_eq_true_eq] at hi
  rw [Option.all_some, endsAbove, Bool.or_eq_true, decide_eq_true_eq]
  by_cases hfinish : (c.ranges[j]).endKey.unbounded = true
  · exact .inl hfinish
  · have hinterval := (h.valid _ (getElem_mem hjlen)).interval hprecedes.start
      (Bool.eq_false_iff.mpr hfinish)
    exact .inr (hi.trans (hprecedes.le.trans_lt hinterval))

/-- The binary search finds what a search from the front finds. -/
theorem WellFormed.searchLookup_eq (h : c.WellFormed) (key : Bytes) :
    c.searchLookup key = c.lookup key := by
  obtain ⟨hbelow, habove, hle⟩ := Search.search_spec
    (f := fun index => c.ranges[index]?.all (·.endsAbove key)) (n := c.ranges.length)
    fun i j hij => h.endsAbove_mono hij
  unfold searchLookup lookup
  set position := Search.search (fun index => c.ranges[index]?.all (·.endsAbove key))
    c.ranges.length with hposition
  have hfind : c.ranges.find? (fun d => d.endKey.unbounded || key < d.endKey.key) =
      c.ranges[position]? := by
    rcases hat : c.ranges[position]? with - | d
    · -- no range ends above the key
      refine find?_eq_none.mpr fun d hd => ?_
      obtain ⟨i, hi, rfl⟩ := mem_iff_getElem.mp hd
      have hlt : i < position := hi.trans_le (getElem?_eq_none_iff.mp hat)
      have hfalse := hbelow i hlt
      rw [getElem?_eq_getElem hi, Option.all_some] at hfalse
      simpa [endsAbove] using hfalse
    · obtain ⟨hlen, rfl⟩ := List.getElem?_eq_some_iff.mp hat
      refine List.find?_eq_some_iff_getElem.mpr ⟨?_, position, hlen, rfl, fun i hi => ?_⟩
      · have htrue := habove position le_rfl hlen
        rw [hat, Option.all_some] at htrue
        exact htrue
      · have hfalse := hbelow i hi
        rw [getElem?_eq_getElem (hi.trans hlen), Option.all_some] at hfalse
        simpa [endsAbove] using hfalse
  cases hat : c.ranges[position]? <;> simp [hfind, hat]

variable {d : RangeDescriptor}

theorem mem_holders : d ∈ c.holders key ↔ d ∈ c.ranges ∧ d.contains key = true := mem_filter

/-- No two ranges hold the same key. -/
theorem WellFormed.holders_le_one (h : c.WellFormed) (key : Bytes) :
    (c.holders key).length ≤ 1 := by
  by_contra hmany
  have hordered : (c.holders key).Pairwise Precedes := h.ordered.filter _
  have hlen : 1 < (c.holders key).length := Nat.lt_of_not_le hmany
  have hprecedes := pairwise_iff_getElem.mp hordered 0 1 (by omega) hlen (by omega)
  have hfirst : key ∈ ((c.holders key)[0]).span := (mem_holders.mp (getElem_mem _)).2
  have hsecond : key ∈ ((c.holders key)[1]).span := (mem_holders.mp (getElem_mem _)).2
  exact Set.disjoint_left.mp hprecedes.disjoint hfirst hsecond

/-- `Lookup` returns the range that holds the key, if there is one. -/
theorem WellFormed.searchLookup_holders (h : c.WellFormed) (key : Bytes) :
    c.searchLookup key = (c.holders key).head?.elim (.error .rangeNotFound) .ok := by
  rw [h.searchLookup_eq]
  rcases hholders : c.holders key with - | ⟨d, rest⟩
  · have hnone : ∀ d ∈ c.ranges, ¬ d.contains key = true := fun d hd hkey => by
      have := mem_holders.mpr ⟨hd, hkey⟩
      rw [hholders] at this
      cases this
    unfold lookup
    split
    · rfl
    · rename_i d hfind
      exact if_neg (hnone d (mem_of_find?_eq_some hfind))
  · have hd : d ∈ c.holders key := by rw [hholders]; exact mem_cons_self
    obtain ⟨hmem, hkey⟩ := mem_holders.mp hd
    rw [h.lookup_ok hmem hkey]
    rfl

end Catalog

/-! ### Full coverage -/

variable {p : RangeDescriptor} {rest : List RangeDescriptor}

/-- Behind a range that starts at or below the key, ranges without gaps up to an unbounded end
hold it. -/
theorem exists_contains_of_chain (hchain : (p :: rest).IsChain (Adjacent false))
    (hstart : p.startKey.unbounded = true ∨ p.startKey.key ≤ key)
    (hend : (p :: rest).getLast?.any (·.endKey.unbounded) = true) :
    ∃ d ∈ p :: rest, d.contains key = true := by
  induction rest generalizing p with
  | nil =>
    refine ⟨p, mem_cons_self, mem_span.mpr ⟨hstart, .inl ?_⟩⟩
    simpa using hend
  | cons q rest ih =>
    obtain ⟨hpq, hchain⟩ := isChain_cons_cons.mp hchain
    by_cases hkey : key < p.endKey.key
    · exact ⟨p, mem_cons_self, mem_span.mpr ⟨hstart, .inr hkey⟩⟩
    · have hstart' : q.startKey.key ≤ key := hpq.tight rfl ▸ not_lt.mp hkey
      obtain ⟨d, hd, hcontains⟩ := ih hchain (.inr hstart') (by simpa using hend)
      exact ⟨d, mem_cons_of_mem _ hd, hcontains⟩

theorem Bootstrap.Acceptable.covers (h : b.Acceptable) (hfull : b.allowPartial = false) :
    b.arrange.Covers := by
  intro key
  have hspan := h.full hfull
  have hchain := h.chain
  rw [hfull] at hchain
  rcases hranges : b.arrange.ranges with - | ⟨p, rest⟩
  · exact absurd hranges h.wellFormed.nonempty
  · rw [hranges] at hspan hchain
    simp only [fullSpan, Bool.and_eq_true, head?_cons, Option.any_some] at hspan
    exact exists_contains_of_chain hchain (.inl hspan.1) hspan.2

theorem Bootstrap.Acceptable.holders_eq_one (h : b.Acceptable) (hfull : b.allowPartial = false)
    (key : Bytes) : (b.arrange.holders key).length = 1 := by
  obtain ⟨d, hd, hkey⟩ := h.covers hfull key
  have hpos := length_pos_of_mem (Catalog.mem_holders.mpr ⟨hd, hkey⟩)
  have hle := h.wellFormed.holders_le_one key
  omega

/-! ### The order of the input -/

theorem RangeDescriptor.replicaLE_antisymm {r r' : ReplicaDescriptor} (h : replicaLE r r')
    (h' : replicaLE r' r) : r = r' := by
  obtain ⟨replica, node⟩ := r
  obtain ⟨replica', node'⟩ := r'
  simp only [replicaLE] at h h'
  have hreplica : replica = replica' := by omega
  subst hreplica
  simp only [lt_irrefl, false_or, true_and] at h h'
  rw [UInt64.le_antisymm h h']

/-- Two descriptors of one range that may list its replicas in another order. -/
structure RangeDescriptor.Reorders (d d' : RangeDescriptor) : Prop where
  rangeID : d.rangeID = d'.rangeID
  generation : d.generation = d'.generation
  startKey : d.startKey = d'.startKey
  endKey : d.endKey = d'.endKey
  replicas : d.replicas.Perm d'.replicas

theorem RangeDescriptor.Reorders.sortReplicas_eq {d d' : RangeDescriptor} (h : d.Reorders d') :
    d.sortReplicas = d'.sortReplicas := by
  obtain ⟨rangeID, generation, startKey, endKey, replicas⟩ := d
  obtain ⟨rangeID', generation', startKey', endKey', replicas'⟩ := d'
  obtain ⟨rfl, rfl, rfl, rfl, hreplicas⟩ := h
  have hperm : (replicas.insertionSort replicaLE).Perm (replicas'.insertionSort replicaLE) :=
    (perm_insertionSort _ _).trans (hreplicas.trans (perm_insertionSort _ _).symm)
  have hsorted := hperm.eq_of_pairwise (fun _ _ _ _ => replicaLE_antisymm)
    (sortReplicas_pairwise ⟨rangeID, generation, startKey, endKey, replicas⟩)
    (sortReplicas_pairwise ⟨rangeID, generation, startKey, endKey, replicas'⟩)
  exact congrArg (RangeDescriptor.mk rangeID generation startKey endKey) hsorted

/-- Two bootstraps that differ only in the order of nodes, ranges and replicas. -/
structure Bootstrap.Reorders (b b' : Bootstrap) : Prop where
  generation : b.generation = b'.generation
  nodes : b.nodes.Perm b'.nodes
  replicationFactor : b.replicationFactor = b'.replicationFactor
  allowPartial : b.allowPartial = b'.allowPartial
  ranges : ∃ ranges, b.ranges.Perm ranges ∧
    List.Forall₂ RangeDescriptor.Reorders ranges b'.ranges

theorem map_sortReplicas_of_reorders {ds ds' : List RangeDescriptor}
    (h : List.Forall₂ Reorders ds ds') :
    ds.map sortReplicas = ds'.map sortReplicas := by
  induction h with
  | nil => rfl
  | cons hd _ ih => rw [map_cons, map_cons, hd.sortReplicas_eq, ih]

/-- Two ranges of a catalog never start at the same place. -/
theorem Precedes.not_startLE {p d : RangeDescriptor} (h : Precedes p d) (hp : p.Valid) :
    ¬ RangeDescriptor.startLE d p := by
  rintro (hstart | ⟨hstart, hlt⟩)
  · exact absurd hstart (by simp [h.start])
  · exact hlt ((hp.interval hstart h.finish).trans_le h.le)

/-- An accepted bootstrap can be sorted in one way only, so it does not matter that the sort of
`NewCatalog` is not stable. -/
theorem Bootstrap.Acceptable.arrange_unique {ds : List RangeDescriptor} (h : b.Acceptable)
    (hperm : ds.Perm (b.ranges.map sortReplicas))
    (hsorted : ds.Pairwise startLE) : ds = b.arrange.ranges := by
  have hwf := h.wellFormed
  have hmem : ∀ d, d ∈ ds ↔ d ∈ b.arrange.ranges :=
    fun d => (hperm.trans b.arrange_perm.symm).mem_iff
  refine (hperm.trans b.arrange_perm.symm).eq_of_pairwise ?_ hsorted ?_
  · intro p d hp hd hpd hdp
    by_contra hne
    have hsym : Std.Symm fun p d : RangeDescriptor => Precedes p d ∨ Precedes d p :=
      ⟨fun _ _ => Or.symm⟩
    have hordered := hwf.ordered.imp (fun h => .inl h :
      ∀ {p d}, Precedes p d → Precedes p d ∨ Precedes d p)
    rcases hordered.forall ((hmem p).mp hp) hd hne with hprecedes | hprecedes
    · exact hprecedes.not_startLE (hwf.valid p ((hmem p).mp hp)) hdp
    · exact hprecedes.not_startLE (hwf.valid d hd) hpd
  · exact hwf.ordered.imp_of_mem fun hp _ hpd => hpd.startLE (hwf.valid _ hp)

theorem Bootstrap.Reorders.arrange_eq (h : b.Reorders b') (hb : b.Acceptable)
    (hb' : b'.Acceptable) : b.arrange = b'.arrange := by
  obtain ⟨ranges, hperm, hranges⟩ := h.ranges
  have hsame : b'.arrange.ranges.Perm (b.ranges.map RangeDescriptor.sortReplicas) := by
    refine b'.arrange_perm.trans ?_
    rw [← map_sortReplicas_of_reorders hranges]
    exact (hperm.map _).symm
  have hsorted : b'.arrange.ranges.Pairwise startLE :=
    hb'.wellFormed.ordered.imp_of_mem fun hp _ hpd => hpd.startLE (hb'.wellFormed.valid _ hp)
  have hnodes : b.arrange.nodes = b'.arrange.nodes :=
    ((perm_insertionSort _ _).trans (h.nodes.trans (perm_insertionSort _ _).symm)).eq_of_pairwise
        (fun _ _ _ _ => UInt64.le_antisymm) (pairwise_insertionSort _ _)
        (pairwise_insertionSort _ _)
  have harranged : b.arrange.ranges = b'.arrange.ranges := (hb.arrange_unique hsame hsorted).symm
  unfold Bootstrap.arrange at hnodes harranged ⊢
  dsimp only at hnodes harranged
  rw [h.generation, h.replicationFactor, h.allowPartial, hnodes, harranged]

/-! ### The canonical form -/

/-- The numbers of the bootstrap are machine numbers. -/
structure Bootstrap.Fits (b : Bootstrap) : Prop where
  generation : b.generation < 2 ^ 64
  ranges : ∀ d ∈ b.ranges, d.Fits

namespace Catalog

variable {crc32 : Bytes → ℕ}

theorem encode_ok (h : newCatalog b = .ok c) :
    c.encode crc32 = .ok (c.body ++ Codec.putLE 4 (crc32 c.body)) := by
  obtain ⟨rfl, hb⟩ := newCatalog_ok_iff.mp h
  exact if_neg (Nat.not_lt.mpr hb.size)

theorem writable (hfits : b.Fits) (h : newCatalog b = .ok c) : c.Writable where
  accepted := newCatalog_snapshot h
  generation := by
    obtain ⟨rfl, -⟩ := newCatalog_ok_iff.mp h
    exact hfits.generation
  ranges d hd := by
    obtain ⟨rfl, -⟩ := newCatalog_ok_iff.mp h
    obtain ⟨d, hmem, rfl⟩ := mem_map.mp (b.arrange_perm.mem_iff.mp hd)
    have hfit := hfits.ranges d hmem
    exact ⟨hfit.rangeID, hfit.generation,
      fun r hr => hfit.replicas r (d.sortReplicas_perm.mem_iff.mp hr)⟩

/-- Only encodings are read: the decoder writes what it read once more. -/
theorem encode_of_decode {encoded : Bytes} (h : decode crc32 encoded = .ok c) :
    c.encode crc32 = .ok encoded ∧ ∃ b, newCatalog b = .ok c := by
  unfold decode at h
  split_ifs at h
  split at h
  · cases h
  · rename_i b rest _
    split_ifs at h
    unfold revalidate at h
    split at h
    · cases h
    · rename_i catalog hcatalog
      split at h
      · cases h
      · rename_i canonical hcanonical
        split_ifs at h with hsame
        cases h
        rw [hcanonical, not_not.mp hsame]
        exact ⟨rfl, b, hcatalog⟩

end Catalog

/-- A catalog routes every key to the one range that holds it, is read back from its bytes, which no
other bytes stand for, and does not depend on the order of what it was built from. -/
theorem catalog_routes_and_encodes (crc32 : Bytes → ℕ) (hfits : b.Fits) (h : newCatalog b = .ok c) :
    (∀ key, (c.holders key).length ≤ 1 ∧
      (b.allowPartial = false → (c.holders key).length = 1) ∧
      c.searchLookup key = (c.holders key).head?.elim (.error .rangeNotFound) .ok) ∧
    (∃ encoded, c.encode crc32 = .ok encoded ∧ Catalog.decode crc32 encoded = .ok c) ∧
    (∀ encoded c', Catalog.decode crc32 encoded = .ok c' →
      c'.encode crc32 = .ok encoded ∧ ∃ b', newCatalog b' = .ok c') ∧
    ∀ b' c', b.Reorders b' → newCatalog b' = .ok c' →
      ∀ H : Hashes, c'.fingerprint H = c.fingerprint H := by
  have hwf := newCatalog_wellFormed h
  refine ⟨fun key => ⟨hwf.holders_le_one key, fun hfull => ?_, hwf.searchLookup_holders key⟩,
    ?_, fun _ _ => Catalog.encode_of_decode, fun b' c' hreorders h' H => ?_⟩
  · obtain ⟨rfl, hb⟩ := newCatalog_ok_iff.mp h
    exact hb.holders_eq_one hfull key
  · have hencode : c.encode crc32 = _ := Catalog.encode_ok h
    exact ⟨_, hencode, (Catalog.writable hfits h).decode_encode hencode⟩
  · obtain ⟨rfl, hb⟩ := newCatalog_ok_iff.mp h
    obtain ⟨rfl, hb'⟩ := newCatalog_ok_iff.mp h'
    rw [hreorders.arrange_eq hb hb']

/-- Two ranges that meet at the key `m`, listed from the right. -/
def halves : Bootstrap where
  generation := 1
  nodes := [2, 1]
  replicationFactor := 2
  ranges :=
    [{ rangeID := 2, generation := 1, startKey := { key := [109] }, endKey := { unbounded := true },
       replicas := [⟨4, 2⟩, ⟨3, 1⟩] },
     { rangeID := 1, generation := 1, startKey := { unbounded := true }, endKey := { key := [109] },
       replicas := [⟨1, 1⟩, ⟨2, 2⟩] }]

theorem halves_fits : halves.Fits where
  generation := by decide
  ranges d hd := by
    simp only [halves, mem_cons, not_mem_nil, or_false] at hd
    rcases hd with rfl | rfl
    · exact ⟨by decide, by decide, by decide⟩
    · exact ⟨by decide, by decide, by decide⟩

theorem catalog_routes_and_encodes_halves :
    newCatalog halves = .ok halves.arrange ∧
      halves.arrange.searchLookup [109, 1] =
        (halves.arrange.holders [109, 1]).head?.elim (.error .rangeNotFound) .ok := by
  have h : newCatalog halves = .ok halves.arrange := by decide +kernel
  exact ⟨h, ((catalog_routes_and_encodes (fun _ => 0) halves_fits h).1 [109, 1]).2.2⟩

end RivetDB.Multiraft
