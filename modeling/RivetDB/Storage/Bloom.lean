import RivetDB.Codec.Bytes

/-!
# The Bloom filter of an SSTable

A filter is an array of bits.  A key sets seven of them, derived from one hash and
one odd step, and a lookup reports a key as absent when one of its bits is clear.
Bits are only ever set, so a filter never hides a key that was added to it.
-/

namespace RivetDB.Storage.Bloom

open List

def bloomProbes : ℕ := 7

def bloomBitsPerKey : ℕ := 10

def bloomSeed : UInt64 := 0x9e3779b97f4a7c15

/-- `mixBloom`. -/
def mixBloom (value : UInt64) : UInt64 :=
  let value := value ^^^ (value >>> 30)
  let value := value * 0xbf58476d1ce4e5b9
  let value := value ^^^ (value >>> 27)
  let value := value * 0x94d049bb133111eb
  value ^^^ (value >>> 31)

/-- `hashBloomKey`: the first position and the step between positions. -/
def hashBloomKey (key : Bytes) : UInt64 × UInt64 :=
  let value := key.foldl (fun value octet => (value ^^^ octet.toUInt64) * 1099511628211)
    ((14695981039346656037 : UInt64) ^^^ bloomSeed)
  (value, mixBloom (value + bloomSeed) ||| 1)

/-- The positions that `add` sets and `mayContain` reads, in a filter of `bits` bits. -/
def positions (bits : ℕ) (hash : UInt64 × UInt64) : List ℕ :=
  (List.range bloomProbes).map fun probe =>
    ((hash.1 + UInt64.ofNat probe * hash.2) % UInt64.ofNat bits).toNat

/-- `add`. -/
def add (filter : List Bool) (hash : UInt64 × UInt64) : List Bool :=
  (positions filter.length hash).foldl (fun bits position => bits.set position true) filter

/-- `mayContain`. -/
def mayContain (filter : List Bool) (key : Bytes) : Bool :=
  filter.isEmpty ||
    (positions filter.length (hashBloomKey key)).all fun position => filter.getD position false

/-- The number of bits `encodeBloom` takes for `count` keys. -/
def bitCount (count : ℕ) : ℕ := (max (count * bloomBitsPerKey) 64 + 7) / 8 * 8

/-- `encodeBloom`, without its header. -/
def encodeBloom (hashes : List (UInt64 × UInt64)) : List Bool :=
  hashes.foldl add (List.replicate (bitCount hashes.length) false)

/-! ### No false negatives -/

/-- Every bit of `filter` is also set in `filter'`. -/
structure Below (filter filter' : List Bool) : Prop where
  length : filter.length = filter'.length
  set : ∀ position, filter.getD position false = true → filter'.getD position false = true

namespace Below

theorem refl (filter : List Bool) : Below filter filter := ⟨rfl, fun _ h => h⟩

theorem trans {f g h : List Bool} (hfg : Below f g) (hgh : Below g h) : Below f h :=
  ⟨hfg.length.trans hgh.length, fun position hset => hgh.set position (hfg.set position hset)⟩

theorem set_true (filter : List Bool) (position : ℕ) : Below filter (filter.set position true) := by
  refine ⟨by simp, fun q hq => ?_⟩
  simp only [getD_eq_getElem?_getD, getElem?_set] at hq ⊢
  split_ifs with heq hlt
  · rfl
  · rw [← heq, getElem?_eq_none (by omega)] at hq
    exact hq
  · exact hq

theorem foldl {β : Type*} {f : List Bool → β → List Bool}
    (hf : ∀ filter b, Below filter (f filter b)) (filter : List Bool) (l : List β) :
    Below filter (l.foldl f filter) := by
  induction l generalizing filter with
  | nil => exact refl filter
  | cons b rest ih => exact (hf filter b).trans (ih (f filter b))

end Below

theorem add_below (filter : List Bool) (hash : UInt64 × UInt64) : Below filter (add filter hash) :=
  Below.foldl (fun bits position => Below.set_true bits position) filter _

/-- The bits of a list of positions are set after they were set one by one. -/
theorem foldl_set {filter : List Bool} {l : List ℕ} (hbound : ∀ q ∈ l, q < filter.length) :
    ∀ q ∈ l,
      (l.foldl (fun bits position => bits.set position true) filter).getD q false = true := by
  induction l generalizing filter with
  | nil => simp
  | cons p rest ih =>
    intro q hq
    have hrest : ∀ q ∈ rest, q < (filter.set p true).length := fun q hq => by
      simpa using hbound q (mem_cons_of_mem _ hq)
    rcases mem_cons.mp hq with rfl | hq
    · refine (Below.foldl Below.set_true (filter.set q true) rest).set q ?_
      have hlt := hbound q mem_cons_self
      simp [getD_eq_getElem?_getD, hlt]
    · exact ih hrest q hq

theorem positions_lt {bits : ℕ} (hpos : 0 < bits) (hbound : bits < 2 ^ 64)
    (hash : UInt64 × UInt64) : ∀ q ∈ positions bits hash, q < bits := by
  intro q hq
  obtain ⟨probe, -, rfl⟩ := mem_map.mp hq
  rw [UInt64.toNat_mod, UInt64.toNat_ofNat', Nat.mod_eq_of_lt hbound]
  exact Nat.mod_lt _ hpos

/-- A filter reports every key that was added to it. -/
theorem mayContain_encodeBloom {keys : List Bytes} {key : Bytes} (h : key ∈ keys)
    (hbound : bitCount keys.length < 2 ^ 64) :
    mayContain (encodeBloom (keys.map hashBloomKey)) key = true := by
  have hlength : ∀ (hashes : List (UInt64 × UInt64)) (filter : List Bool),
      (hashes.foldl add filter).length = filter.length := fun hashes filter =>
    (Below.foldl add_below filter hashes).length.symm
  have hpos : 0 < bitCount keys.length := by
    unfold bitCount
    omega
  unfold mayContain encodeBloom
  rw [hlength, length_replicate, length_map, Bool.or_eq_true, all_eq_true]
  refine .inr fun q hq => ?_
  -- split the keys at `key`: its bits are set there and never cleared
  obtain ⟨front, back, rfl⟩ := append_of_mem h
  rw [map_append, map_cons, foldl_append, foldl_cons]
  refine (Below.foldl add_below _ (back.map hashBloomKey)).set q ?_
  generalize hfront : (front.map hashBloomKey).foldl add _ = filter
  have hsize : filter.length = bitCount (front ++ key :: back).length := by
    rw [← hfront, hlength, length_replicate]
  unfold add
  rw [hsize]
  refine foldl_set (fun p hp => ?_) q hq
  rw [hsize]
  exact positions_lt hpos hbound _ p hp

end RivetDB.Storage.Bloom
