import RivetDB.Wal.Log

/-!
# Recovery of the record log

A file that writers have filled is laid out as records and padding.  Whatever prefix of it a
crash leaves, a scan delivers the records that end inside the prefix and reports the rest as a
truncated tail, never as corruption.  After the tail is cut off the file is laid out again, so
this goes on through any number of crashes.

The reader is compared with the writer at the end of every fragment: between records it is
`AtRest`, inside a record its assembly is what the writer has consumed.
-/

namespace RivetDB.Wal

open List
open Codec (slice byteAt putLE getLE)

variable {update : Update}

/-! ### One fragment -/

@[simp] theorem length_headerTail (length : ℕ) (kind : FragmentKind) :
    (headerTail length kind).length = 3 := by
  simp [headerTail]

@[simp] theorem length_makeHeader (payload : Bytes) (kind : FragmentKind) :
    (makeHeader update payload kind).length = headerSize := by
  simp [makeHeader, headerSize]

theorem FragmentKind.ofByte_toByte (kind : FragmentKind) :
    FragmentKind.ofByte kind.toByte = some kind ∧ kind.toByte.toNat / 16 = 0 := by
  cases kind <;> decide

/-- The fields of a header are read back. -/
theorem header_fields {payload : Bytes} (kind : FragmentKind) (hlength : payload.length < 2 ^ 16) :
    getLE (slice (makeHeader update payload kind) 0 4) =
        (update (update 0 (headerTail payload.length kind)) payload).toNat ∧
      getLE (slice (makeHeader update payload kind) 4 8) =
        (update 0 (headerTail payload.length kind)).toNat ∧
      slice (makeHeader update payload kind) 8 11 = headerTail payload.length kind ∧
      getLE (slice (makeHeader update payload kind) 8 10) = payload.length ∧
      byteAt (makeHeader update payload kind) 10 = kind.toByte := by
  have hcrc : ∀ c b, getLE (putLE 4 (update c b).toNat) = (update c b).toNat := fun c b =>
    Codec.getLE_putLE_of_lt (show (update c b).toNat < 256 ^ 4 from (update c b).toNat_lt)
  have htail : ∀ i j, slice (makeHeader update payload kind) (8 + i) (8 + j) =
      slice (headerTail payload.length kind) i j := fun i j => by
    unfold makeHeader
    rw [Codec.slice_append_behind (by simp; omega), Codec.slice_append_behind (by simp; omega)]
    simp only [Codec.length_putLE]
    congr 1 <;> omega
  refine ⟨?_, ?_, ?_, ?_, ?_⟩
  · unfold makeHeader
    rw [Codec.slice_append_front (Codec.length_putLE 4 _), hcrc]
  · unfold makeHeader
    rw [Codec.slice_append_behind (by simp), Codec.length_putLE,
      Codec.slice_append_front (Codec.length_putLE 4 _), hcrc]
  · rw [show (11 : ℕ) = 8 + 3 from rfl, show (8 : ℕ) = 8 + 0 from rfl, htail,
      Codec.slice_all (length_headerTail _ _)]
  · rw [show (10 : ℕ) = 8 + 2 from rfl, show (8 : ℕ) = 8 + 0 from rfl, htail]
    unfold headerTail
    rw [Codec.slice_append_front (Codec.length_putLE 2 _),
      Codec.getLE_putLE_of_lt (show payload.length < 256 ^ 2 from hlength)]
  · unfold byteAt
    rw [show (10 + 1 : ℕ) = 8 + 3 from rfl, show (10 : ℕ) = 8 + 2 from rfl, htail]
    unfold headerTail
    rfl

namespace Reader

variable {r : Reader} {pre payload : Bytes} {kind : FragmentKind}

section

variable (hoffset : r.offset = pre.length)
  (hroom : headerSize + payload.length ≤ blockRemaining pre.length)

include hoffset hroom

/-- Behind a header that was written for `payload`, the reader looks for that many bytes. -/
theorem readFragment_header (rest : Bytes) :
    r.readFragment update (pre ++ (makeHeader update payload kind ++ rest)) =
      if rest.length < payload.length then
        .stop (r.markTail r.incompleteStart (pre.length + headerSize + rest.length))
      else if (update (update 0 (headerTail payload.length kind)) payload).toNat ≠
          (update (update 0 (headerTail payload.length kind)) (rest.take payload.length)).toNat then
        r.fail r.offset .checksumMismatch
      else
        { r with offset := pre.length + headerSize + payload.length }.acceptFragment kind
          (rest.take payload.length) pre.length := by
  have hblock : blockRemaining pre.length ≤ blockSize := Nat.sub_le _ _
  have hsize : blockSize = 32768 ∧ headerSize = 11 := ⟨rfl, rfl⟩
  obtain ⟨hcontent, hheader, htail, hlength, hkind⟩ :=
    header_fields kind (show payload.length < 2 ^ 16 by omega)
  have hslice : slice (pre ++ (makeHeader update payload kind ++ rest)) r.offset
      (r.offset + headerSize) = makeHeader update payload kind := by
    rw [hoffset, Codec.slice_append_behind le_rfl, Nat.sub_self, Nat.add_sub_cancel_left,
      Codec.slice_append_front (length_makeHeader payload kind)]
  have hbody : slice (pre ++ (makeHeader update payload kind ++ rest)) (r.offset + headerSize)
      (r.offset + headerSize + payload.length) = rest.take payload.length := by
    rw [hoffset, Codec.slice_append_behind (Nat.le_add_right _ _),
      Codec.slice_append_behind (by rw [length_makeHeader]; omega), length_makeHeader]
    unfold slice
    rw [show pre.length + headerSize - pre.length - headerSize = 0 by omega, drop_zero]
    congr 1
    omega
  have htotal : (pre ++ (makeHeader update payload kind ++ rest)).length =
      pre.length + headerSize + rest.length := by
    simp
    omega
  unfold readFragment
  dsimp only
  rw [hslice, htail, hheader, hlength, hkind, hcontent, htotal]
  rw [if_neg (not_not.mpr rfl), if_neg (not_not.mpr (FragmentKind.ofByte_toByte kind).2),
    (FragmentKind.ofByte_toByte kind).1]
  dsimp only
  rw [if_neg (by rw [hoffset]; omega), hbody, hoffset]
  have hshort :
      pre.length + headerSize + rest.length - (pre.length + headerSize) < payload.length ↔
        rest.length < payload.length := by omega
  simp only [hshort]

theorem step_fragment (rest : Bytes) :
    r.step update (pre ++ (makeHeader update payload kind ++ (payload ++ rest))) =
      { r with offset := pre.length + headerSize + payload.length }.acceptFragment kind payload
        pre.length := by
  have hsize : headerSize = 11 := rfl
  unfold step
  rw [if_neg, if_neg, if_neg, readFragment_header hoffset hroom, if_neg, take_left,
    if_neg (not_not.mpr rfl)]
  · simp
  · simp only [length_append, length_makeHeader]
    omega
  · rw [hoffset]
    omega
  · simp only [length_append, length_makeHeader]
    omega

/-- A fragment that ends too early is a truncated tail. -/
theorem step_short {k : ℕ} (hpositive : 0 < k) (hshort : k < headerSize + payload.length) :
    r.step update (pre ++ (makeHeader update payload kind ++ payload).take k) =
      .stop (r.markTail r.incompleteStart (pre.length + k)) := by
  have hlength : ((makeHeader update payload kind ++ payload).take k).length = k := by
    rw [length_take, length_append, length_makeHeader]
    omega
  unfold step
  rw [if_neg, if_neg]
  · by_cases hheader : k < headerSize
    · rw [if_pos, length_append, hlength]
      rw [length_append, hlength, hoffset]
      omega
    · have hsplit : (makeHeader update payload kind ++ payload).take k =
          makeHeader update payload kind ++ payload.take (k - headerSize) := by
        rw [take_append, length_makeHeader, take_of_length_le]
        rw [length_makeHeader]
        omega
      have htaken : (payload.take (k - headerSize)).length = k - headerSize := by
        rw [length_take]
        omega
      rw [if_neg, hsplit, readFragment_header hoffset hroom, if_pos, htaken]
      · congr 2
        omega
      · rw [htaken]
        omega
      · rw [length_append, hlength, hoffset]
        omega
  · rw [hoffset]
    omega
  · rw [length_append, hlength, hoffset]
    omega

end

theorem slice_zeros (pre : Bytes) {k j : ℕ} (hk : k ≤ j) (rest : Bytes) :
    slice (pre ++ (List.replicate j 0 ++ rest)) pre.length (pre.length + k) =
      List.replicate k 0 := by
  rw [Codec.slice_append_behind le_rfl, Nat.sub_self, Nat.add_sub_cancel_left]
  unfold slice
  rw [drop_zero, Nat.sub_zero, take_append_of_le_length (by simpa using hk),
    take_replicate, Nat.min_eq_left hk]

theorem step_padding (hoffset : r.offset = pre.length) (hpadding : 0 < padding pre.length)
    (rest : Bytes) :
    r.step update (pre ++ (List.replicate (padding pre.length) 0 ++ rest)) =
      .more { r with offset := pre.length + padding pre.length } := by
  have hlow : blockRemaining pre.length < headerSize := by
    by_contra hnot
    rw [padding, if_neg hnot] at hpadding
    exact absurd hpadding (lt_irrefl 0)
  have hpad : padding pre.length = blockRemaining pre.length := if_pos hlow
  have havailable : min (blockRemaining pre.length)
      ((pre ++ (List.replicate (padding pre.length) 0 ++ rest)).length - pre.length) =
      blockRemaining pre.length := by
    simp only [length_append, length_replicate]
    omega
  unfold step consumePadding
  rw [hoffset, if_neg, if_pos hlow]
  · dsimp only
    rw [havailable, ← hpad, slice_zeros pre le_rfl, if_neg (not_not.mpr rfl), if_neg (lt_irrefl _)]
  · simp only [length_append, length_replicate]
    omega

theorem step_padding_short (hoffset : r.offset = pre.length) {k : ℕ} (hpositive : 0 < k)
    (hshort : k < padding pre.length) :
    r.step update (pre ++ List.replicate k 0) =
      .stop ({ r with offset := pre.length + k }.markTail r.incompleteStart (pre.length + k)) := by
  have hlow : blockRemaining pre.length < headerSize := by
    by_contra hnot
    rw [padding, if_neg hnot] at hshort
    exact absurd hshort (Nat.not_lt_zero k)
  have hpad : padding pre.length = blockRemaining pre.length := if_pos hlow
  have havailable : min (blockRemaining pre.length)
      ((pre ++ List.replicate k 0).length - pre.length) = k := by
    simp only [length_append, length_replicate]
    omega
  have hzeros : slice (pre ++ List.replicate k 0) pre.length (pre.length + k) =
      List.replicate k 0 := by
    have := slice_zeros pre (le_refl k) []
    rwa [append_nil] at this
  unfold step consumePadding
  rw [hoffset, if_neg, if_pos hlow]
  · dsimp only
    rw [havailable, hzeros, if_neg (not_not.mpr rfl), if_pos (by omega)]
    simp
  · simp only [length_append, length_replicate]
    omega

/-! ### One record -/

/-- Between records: nothing is being assembled, and nothing has gone wrong. -/
structure AtRest (r : Reader) (position last count : ℕ) : Prop where
  offset : r.offset = position
  validEnd : r.validEnd = last
  number : r.number = count
  assembling : r.assembling = false
  tail : r.tail = none
  err : r.err = none

/-- Inside the loop of `Append`: the reader has assembled what the writer has consumed. -/
structure Follows (r : Reader) (first : Bool) (position : ℕ) (consumed : Bytes) (start : ℕ) :
    Prop where
  offset : r.offset = position
  assembling : r.assembling = !first
  assembly : first = false → r.assembly = consumed ∧ r.recordAt = start
  fresh : first = true → consumed = [] ∧ start = position
  tail : r.tail = none
  err : r.err = none

/-- Between records the next `Append` starts. -/
theorem AtRest.follows {r : Reader} {position last count : ℕ} (h : r.AtRest position last count) :
    r.Follows true position [] position :=
  ⟨h.offset, h.assembling, nofun, fun _ => ⟨rfl, rfl⟩, h.tail, h.err⟩

/-- Where no padding is needed, a fragment that takes what the room allows fits in the block. -/
theorem room_fits {offset : ℕ} (hpadding : padding offset = 0) :
    headerSize + room offset ≤ blockRemaining offset := by
  have hspec := (padding_spec offset).2
  unfold room
  rw [hpadding, Nat.add_zero] at hspec ⊢
  omega

/-- The last fragment completes the record. -/
theorem Follows.accept_last {first : Bool} {offset start : ℕ} {consumed rest : Bytes} (stop : ℕ)
    (h : r.Follows first offset consumed start)
    (hsize : (consumed ++ rest).length ≤ maxRecordSize) :
    ∃ r', { r with offset := stop }.acceptFragment (.choose first true) rest offset =
        .record ⟨consumed ++ rest, ⟨start, stop⟩, r.number⟩ r' ∧
      r'.AtRest stop stop (r.number + 1) := by
  have hassembling := h.assembling
  cases first with
  | true =>
    obtain ⟨rfl, rfl⟩ := h.fresh rfl
    refine ⟨{ r with offset := stop, number := r.number + 1, validEnd := stop }, ?_,
      ⟨rfl, rfl, rfl, hassembling, h.tail, h.err⟩⟩
    rw [nil_append] at hsize ⊢
    unfold acceptFragment finishRecord FragmentKind.choose
    dsimp only
    rw [hassembling, if_neg (by simp), if_neg (not_lt.mpr hsize)]
  | false =>
    obtain ⟨hassembly, hstart⟩ := h.assembly rfl
    refine ⟨{ r with
      offset := stop, number := r.number + 1, validEnd := stop, assembly := [],
      assembling := false }, ?_, ⟨rfl, rfl, rfl, rfl, h.tail, h.err⟩⟩
    rw [length_append] at hsize
    unfold acceptFragment finishRecord FragmentKind.choose
    dsimp only
    rw [hassembling, hassembly, hstart, if_neg (by simp), if_neg (by omega),
      if_neg (by rw [length_append]; omega)]

/-- A fragment before the last one is added to the assembly. -/
theorem Follows.accept_more {first : Bool} {offset start : ℕ} {consumed fragment : Bytes} (stop : ℕ)
    (h : r.Follows first offset consumed start)
    (hsize : (consumed ++ fragment).length ≤ maxRecordSize) :
    ∃ r', { r with offset := stop }.acceptFragment (.choose first false) fragment offset =
        .more r' ∧ r'.Follows false stop (consumed ++ fragment) start ∧
      r'.validEnd = r.validEnd ∧ r'.number = r.number := by
  have hassembling := h.assembling
  cases first with
  | true =>
    obtain ⟨rfl, rfl⟩ := h.fresh rfl
    refine ⟨{ r with offset := stop, assembly := fragment, assembling := true, recordAt := start },
      ?_, ⟨rfl, rfl, fun _ => ⟨rfl, rfl⟩, nofun, h.tail, h.err⟩, rfl, rfl⟩
    unfold acceptFragment FragmentKind.choose
    dsimp only
    rw [hassembling, if_neg (by simp)]
  | false =>
    obtain ⟨hassembly, hstart⟩ := h.assembly rfl
    refine ⟨{ r with offset := stop, assembly := r.assembly ++ fragment }, ?_,
      ⟨rfl, hassembling, fun _ => ⟨by rw [hassembly], hstart⟩, nofun, h.tail, h.err⟩, rfl, rfl⟩
    rw [length_append] at hsize
    unfold acceptFragment FragmentKind.choose
    dsimp only
    rw [hassembling, hassembly, if_neg (by simp), if_neg (by omega)]

/-- The bytes of a fragment that is not the last one, with the rest behind them. -/
theorem fragments_more {first : Bool} {offset : ℕ} {rest : Bytes} (hpadding : padding offset = 0)
    (hmore : room offset < rest.length) :
    fragments update first offset rest =
      makeHeader update (rest.take (room offset)) (.choose first false) ++
        (rest.take (room offset) ++
          fragments update false (offset + headerSize + room offset)
            (rest.drop (room offset))) := by
  rw [fragments, hpadding, if_neg (not_le.mpr hmore)]
  rfl

theorem fragments_last {first : Bool} {offset : ℕ} {rest : Bytes} (hpadding : padding offset = 0)
    (hlast : rest.length ≤ room offset) :
    fragments update first offset rest = makeHeader update rest (.choose first true) ++ rest := by
  rw [fragments, hpadding, if_pos hlast]
  rfl

/-- A fragment that is not the last one: it fills its block, the reader takes it up, and the
next one starts the next block. -/
theorem Follows.fragment {first : Bool}
    {rest consumed : Bytes} {start : ℕ} (hpadding : padding pre.length = 0)
    (h : r.Follows first pre.length consumed start)
    (hsize : (consumed ++ rest).length ≤ maxRecordSize) (hmore : room pre.length < rest.length) :
    ∃ (written : Bytes) (r₁ : Reader), written.length = headerSize + room pre.length ∧
      fragments update first pre.length rest =
        written ++ fragments update false (pre ++ written).length (rest.drop (room pre.length)) ∧
      padding (pre ++ written).length = 0 ∧ 0 < room (pre ++ written).length ∧
      r₁.Follows false (pre ++ written).length (consumed ++ rest.take (room pre.length)) start ∧
      r₁.validEnd = r.validEnd ∧ r₁.number = r.number ∧
      (∀ behind, r.step update (pre ++ written ++ behind) = .more r₁) ∧
      ∀ k, 0 < k → k < headerSize + room pre.length → r.step update (pre ++ written.take k) =
        .stop (r.markTail r.incompleteStart (pre.length + k)) := by
  have hfits := room_fits hpadding
  have htake : (rest.take (room pre.length)).length = room pre.length :=
    length_take_of_le hmore.le
  have hblock := next_block pre.length
  rw [hpadding, Nat.add_zero] at hblock
  obtain ⟨hpadding', hroom'⟩ := room_of_block hblock
  have hconsumed : (consumed ++ rest.take (room pre.length)).length ≤ maxRecordSize := by
    rw [length_append] at hsize ⊢
    omega
  obtain ⟨r₁, haccept, hfollows, hvalid, hnumber⟩ :=
    h.accept_more (pre.length + headerSize + room pre.length) hconsumed
  set written := makeHeader update (rest.take (room pre.length)) (.choose first false) ++
    rest.take (room pre.length) with hwritten
  have hlength : written.length = headerSize + room pre.length := by
    rw [hwritten, length_append, length_makeHeader, htake]
  have hend : (pre ++ written).length = pre.length + headerSize + room pre.length := by
    rw [length_append, hlength, Nat.add_assoc]
  refine ⟨written, r₁, hlength, ?_, ?_, ?_, ?_, hvalid, hnumber, fun behind => ?_,
    fun k hk hk' => ?_⟩
  · rw [hend, fragments_more hpadding hmore, hwritten, append_assoc]
  · rw [hend]
    exact hpadding'
  · rw [hend]
    exact hroom'
  · rw [hend]
    exact hfollows
  · rw [hwritten, append_assoc, append_assoc, step_fragment h.offset (by omega), htake, haccept]
  · exact step_short h.offset (by omega) hk (by omega)

/-- The rest of a record that is complete is delivered. -/
theorem scan_fragments {r : Reader} {pre : Bytes}
    {first : Bool} {rest consumed : Bytes} {start : ℕ} (hpadding : padding pre.length = 0)
    (h : r.Follows first pre.length consumed start)
    (hsize : (consumed ++ rest).length ≤ maxRecordSize) (behind : Bytes) :
    ∃ r' : Reader, r'.AtRest (pre.length + (fragments update first pre.length rest).length)
        (pre.length + (fragments update first pre.length rest).length) (r.number + 1) ∧
      r.scan update (pre ++ (fragments update first pre.length rest ++ behind)) =
        (⟨consumed ++ rest,
            ⟨start, pre.length + (fragments update first pre.length rest).length⟩, r.number⟩ ::
          (r'.scan update (pre ++ (fragments update first pre.length rest ++ behind))).1,
        (r'.scan update (pre ++ (fragments update first pre.length rest ++ behind))).2) := by
  have hfits := room_fits hpadding
  by_cases hlast : rest.length ≤ room pre.length
  · rw [fragments_last hpadding hlast]
    have hlength : pre.length + (makeHeader update rest (.choose first true) ++ rest).length =
        pre.length + headerSize + rest.length := by
      rw [length_append, length_makeHeader, Nat.add_assoc]
    obtain ⟨r', haccept, hrest⟩ := h.accept_last (pre.length + headerSize + rest.length) hsize
    refine ⟨r', hlength ▸ hrest, ?_⟩
    rw [scan_eq, append_assoc, step_fragment h.offset (by omega), haccept, hlength]
  · obtain ⟨written, r₁, hlength, hbytes, hpadding', hroom', hfollows, -, hnumber, hstep, -⟩ :=
      h.fragment hpadding hsize (not_le.mp hlast)
    have hwhole : consumed ++ rest.take (room pre.length) ++ rest.drop (room pre.length) =
        consumed ++ rest := by
      rw [append_assoc, take_append_drop]
    obtain ⟨r', hrest, hscan⟩ := scan_fragments hpadding' hfollows (hwhole ▸ hsize) behind
    have hend : (pre ++ written).length + (fragments update false (pre ++ written).length
        (rest.drop (room pre.length))).length =
        pre.length + (fragments update first pre.length rest).length := by
      rw [hbytes, length_append, length_append]
      omega
    have hdata : pre ++ (fragments update first pre.length rest ++ behind) = pre ++ written ++
        (fragments update false (pre ++ written).length (rest.drop (room pre.length)) ++
          behind) := by
      rw [hbytes]
      simp only [append_assoc]
    rw [hend, hnumber, hwhole] at hscan
    rw [hend, hnumber] at hrest
    refine ⟨r', hrest, ?_⟩
    rw [hdata, scan_eq, hstep, ← hscan]
termination_by 2 * rest.length + if room pre.length = 0 then 1 else 0
decreasing_by
  rw [if_neg hroom'.ne', length_drop]
  split_ifs with hzero <;> omega

/-- At the end of the file a scan stops, with a tail if it is inside a record. -/
theorem scan_end {first : Bool} {consumed : Bytes} {start : ℕ}
    (h : r.Follows first pre.length consumed start) :
    ∃ r' : Reader, r.scan update pre = ([], r') ∧ r'.err = none ∧ r'.validEnd = r.validEnd ∧
      r'.tail.isSome = !first := by
  rw [scan_eq]
  unfold step
  rw [if_pos h.offset, h.assembling]
  cases first with
  | true => exact ⟨r, rfl, h.err, rfl, by rw [h.tail]; rfl⟩
  | false => exact ⟨_, rfl, h.err, rfl, rfl⟩

/-- A record that is cut off delivers nothing and is reported as a tail. -/
theorem scan_truncated {r : Reader} {pre : Bytes}
    {first : Bool} {rest consumed : Bytes} {start k : ℕ} (hpadding : padding pre.length = 0)
    (h : r.Follows first pre.length consumed start)
    (hsize : (consumed ++ rest).length ≤ maxRecordSize)
    (hk : k < (fragments update first pre.length rest).length) :
    ∃ r' : Reader,
      r.scan update (pre ++ (fragments update first pre.length rest).take k) = ([], r') ∧
      r'.err = none ∧ r'.validEnd = r.validEnd ∧ r'.tail.isSome = (!first || decide (0 < k)) := by
  have hfits := room_fits hpadding
  rcases Nat.eq_zero_or_pos k with rfl | hpositive
  · rw [take_zero, append_nil]
    obtain ⟨r', hscan, herr, hvalid, htail⟩ := @scan_end update _ _ _ _ _ h
    exact ⟨r', hscan, herr, hvalid, by simpa using htail⟩
  have hstopped : ∀ data, r.step update data = .stop (r.markTail r.incompleteStart data.length) →
      ∃ r' : Reader, r.scan update data = ([], r') ∧ r'.err = none ∧ r'.validEnd = r.validEnd ∧
        r'.tail.isSome = (!first || decide (0 < k)) := fun data hstep => by
    rw [scan_eq, hstep]
    exact ⟨_, rfl, h.err, rfl, by simp [markTail, hpositive]⟩
  by_cases hlast : rest.length ≤ room pre.length
  · rw [fragments_last hpadding hlast] at hk ⊢
    rw [length_append, length_makeHeader] at hk
    refine hstopped _ ?_
    rw [step_short h.offset (by omega) hpositive hk, length_append, length_take,
      length_append, length_makeHeader, Nat.min_eq_left (by omega)]
  obtain ⟨written, r₁, hlength, hbytes, hpadding', hroom', hfollows, hvalid₁, -, hstep, hshort⟩ :=
    h.fragment hpadding hsize (not_le.mp hlast)
  by_cases hfragment : k < headerSize + room pre.length
  · -- the cut is inside this fragment
    refine hstopped _ ?_
    rw [hbytes, take_append_of_le_length (by omega), hshort k hpositive hfragment,
      length_append, length_take, Nat.min_eq_left (by omega)]
  · -- the cut is in a later fragment
    have hwhole : consumed ++ rest.take (room pre.length) ++ rest.drop (room pre.length) =
        consumed ++ rest := by
      rw [append_assoc, take_append_drop]
    rw [hbytes, length_append, hlength] at hk
    obtain ⟨r', hscan, herr, hvalid, htail⟩ := scan_truncated hpadding' hfollows
      (hwhole ▸ hsize) (show k - (headerSize + room pre.length) < _ by omega)
    have hdata : pre ++ (fragments update first pre.length rest).take k = pre ++ written ++
        (fragments update false (pre ++ written).length (rest.drop (room pre.length))).take
          (k - (headerSize + room pre.length)) := by
      rw [hbytes, take_append, hlength, take_of_length_le (by omega), append_assoc]
    refine ⟨r', ?_, herr, hvalid.trans hvalid₁, ?_⟩
    · rw [hdata, scan_eq, hstep]
      exact hscan
    · rw [htail, decide_eq_true hpositive, Bool.or_true]
      rfl
termination_by 2 * rest.length + if room pre.length = 0 then 1 else 0
decreasing_by
  rw [if_neg hroom'.ne', length_drop]
  split_ifs with hzero <;> omega

end Reader

/-! ### Files that writers have filled -/

/-- A payload and where its record is. -/
abbrev Logged := Bytes × Position

/-- The end of the last record. -/
def lastStop (log : List Logged) : ℕ := (log.getLast?.map (·.2.stop)).getD 0

/-- The records that end inside a prefix. -/
def within (log : List Logged) (n : ℕ) : List Logged := log.filter (·.2.stop ≤ n)

/-- A file of records, each at the place of the log, with padding where a block has no room for
a header. -/
inductive Laid (update : Update) : Bytes → List Logged → Prop
  | nil : Laid update [] []
  | pad {file : Bytes} {log : List Logged} (h : Laid update file log)
      (hpadding : 0 < padding file.length) :
      Laid update (file ++ List.replicate (padding file.length) 0) log
  | record {file : Bytes} {log : List Logged} (h : Laid update file log)
      (hpadding : padding file.length = 0) (payload : Bytes)
      (hsize : payload.length ≤ maxRecordSize) :
      Laid update (file ++ fragments update true file.length payload) (log ++ [(payload,
          ⟨file.length, file.length + (fragments update true file.length payload).length⟩)])

@[simp] theorem lastStop_append (log : List Logged) (entry : Logged) :
    lastStop (log ++ [entry]) = entry.2.stop := by
  simp [lastStop]

namespace Laid

variable {file : Bytes} {log : List Logged}

section

variable (h : Laid update file log)

include h

/-- No record ends behind the file. -/
theorem stop_le : ∀ entry ∈ log, entry.2.stop ≤ file.length := by
  induction h with
  | nil => simp
  | pad h hpadding ih =>
    intro entry hentry
    rw [length_append]
    exact (ih entry hentry).trans (Nat.le_add_right _ _)
  | record h hpadding payload hsize ih =>
    intro entry hentry
    rw [length_append]
    rcases mem_append.mp hentry with hold | hnew
    · exact (ih entry hold).trans (Nat.le_add_right _ _)
    · rw [mem_singleton.mp hnew]

theorem lastStop_le : lastStop log ≤ file.length := by
  unfold lastStop
  rcases hlast : log.getLast? with - | entry
  · exact Nat.zero_le _
  · exact h.stop_le entry (mem_of_getLast? hlast)

/-- All records are within a prefix that reaches the end of the file. -/
theorem within_all {n : ℕ} (hn : file.length ≤ n) : within log n = log :=
  filter_eq_self.mpr fun entry hentry => by
    simpa using (h.stop_le entry hentry).trans hn

/-- The file ends with its last record, or with the padding behind it. -/
theorem shape :
    file.length = lastStop log ∨
      (0 < padding (lastStop log) ∧ file.length = lastStop log + padding (lastStop log)) := by
  induction h with
  | nil => exact .inl rfl
  | pad h hpadding ih =>
    rw [length_append, length_replicate]
    rcases ih with heq | ⟨-, heq⟩
    · exact .inr ⟨heq ▸ hpadding, by rw [heq]⟩
    · rw [heq, (padding_spec _).1] at hpadding
      exact absurd hpadding (lt_irrefl 0)
  | record h hpadding payload hsize ih => exact .inl (by simp)

/-- Without the padding at its end the file is laid out too. -/
theorem trim : Laid update (file.take (lastStop log)) log := by
  induction h with
  | nil => exact .nil
  | pad h hpadding ih =>
    rwa [take_append_of_le_length h.lastStop_le]
  | @record file log h hpadding payload hsize ih =>
    rw [lastStop_append, take_of_length_le (by simp)]
    exact .record h hpadding payload hsize

/-- Whatever is behind the file, a scan delivers its records and is then at its end. -/
theorem scan (behind : Bytes) :
    ∃ (records : List Record) (r : Reader),
      records.map (fun record => (record.payload, record.position)) = log ∧
      r.AtRest file.length (lastStop log) log.length ∧
      Reader.scan update (file ++ behind) {} =
        (records ++ (r.scan update (file ++ behind)).1, (r.scan update (file ++ behind)).2) := by
  induction h generalizing behind with
  | nil => exact ⟨[], {}, rfl, ⟨rfl, rfl, rfl, rfl, rfl, rfl⟩, rfl⟩
  | @pad file log h hpadding ih =>
    obtain ⟨records, r, hrecords, hrest, hscan⟩ :=
      ih (List.replicate (padding file.length) 0 ++ behind)
    refine ⟨records, { r with offset := file.length + padding file.length }, hrecords,
      ⟨by simp, hrest.validEnd, hrest.number, hrest.assembling, hrest.tail, hrest.err⟩, ?_⟩
    rw [append_assoc, hscan, Reader.scan_eq update _ r, Reader.step_padding hrest.offset hpadding]
  | @record file log h hpadding payload hsize ih =>
    obtain ⟨records, r, hrecords, hrest, hscan⟩ :=
      ih (fragments update true file.length payload ++ behind)
    obtain ⟨r', hrest', hscan'⟩ := Reader.scan_fragments hpadding hrest.follows
      (by simpa using hsize) behind
    refine ⟨records ++ [⟨payload, ⟨file.length,
      file.length + (fragments update true file.length payload).length⟩, r.number⟩], r', ?_, ?_, ?_⟩
    · rw [map_append, hrecords]
      rfl
    · rw [hrest.number] at hrest'
      rw [lastStop_append, length_append, length_append]
      exact hrest'
    · rw [append_assoc, hscan, hscan']
      simp

end

end Laid

/-- What a recovery of `data` reports, when `log` is what it should find. -/
structure Recovers (update : Update) (data : Bytes) (log : List Logged) : Prop where
  records : (recover update data).1.map (fun record => (record.payload, record.position)) = log
  err : (recover update data).2.2 = none
  validEnd : (recover update data).2.1.validEnd = lastStop log
  tail : (recover update data).2.1.tailTruncated = false →
    data.length = lastStop log ∨
      (0 < padding (lastStop log) ∧ data.length = lastStop log + padding (lastStop log))

namespace Laid

variable {file : Bytes} {log : List Logged}

/-- The outcome of a scan of a prefix: the records within it, and either a tail is reported or
the prefix is laid out itself. -/
structure Cut (update : Update) (data : Bytes) (log : List Logged) : Prop where
  records : (Reader.scan update data {}).1.map
    (fun record => (record.payload, record.position)) = log
  err : (Reader.scan update data {}).2.err = none
  validEnd : (Reader.scan update data {}).2.validEnd = lastStop log
  clean : (Reader.scan update data {}).2.tail.isSome = false → Laid update data log
  trimmed : Laid update (data.take (lastStop log)) log

/-- A file that is laid out has no tail. -/
theorem whole (h : Laid update file log) :
    Cut update file log ∧ (Reader.scan update file {}).2.tail.isSome = false := by
  obtain ⟨records, r, hrecords, hrest, hscan⟩ := h.scan []
  obtain ⟨r', hend, herr, hvalid, htail⟩ := @Reader.scan_end update _ _ _ _ _ hrest.follows
  rw [append_nil, hend, append_nil] at hscan
  refine ⟨⟨?_, ?_, ?_, fun _ => h, h.trim⟩, ?_⟩ <;> rw [hscan]
  · exact hrecords
  · exact herr
  · exact hvalid.trans hrest.validEnd
  · exact htail

/-- A cut behind the file, inside something that is reported as a tail. -/
theorem cut_behind (h : Laid update file log) {behind : Bytes}
    (htail : ∀ r : Reader, r.AtRest file.length (lastStop log) log.length →
      ∃ r' : Reader, r.scan update (file ++ behind) = ([], r') ∧ r'.err = none ∧
        r'.validEnd = r.validEnd ∧ r'.tail.isSome = true) :
    Cut update (file ++ behind) log := by
  obtain ⟨records, r, hrecords, hrest, hscan⟩ := h.scan behind
  obtain ⟨r', hend, herr, hvalid, hsome⟩ := htail r hrest
  rw [hend] at hscan
  refine ⟨?_, ?_, ?_, fun hnone => ?_, ?_⟩
  · rw [hscan, append_nil]
    exact hrecords
  · rw [hscan]
    exact herr
  · rw [hscan]
    exact hvalid.trans hrest.validEnd
  · rw [hscan, hsome] at hnone
    cases hnone
  · rw [take_append_of_le_length h.lastStop_le]
    exact h.trim

/-- Every prefix of a file that writers have filled. -/
theorem cut (h : Laid update file log) (n : ℕ) : Cut update (file.take n) (within log n) := by
  induction h with
  | nil =>
    rw [take_nil]
    exact Laid.nil.whole.1
  | @pad file log h hpadding ih =>
    rcases Nat.lt_or_ge file.length n with hbehind | hinside
    · rw [h.within_all hbehind.le]
      rcases Nat.lt_or_ge (n - file.length) (padding file.length) with hshort | hfull
      · have hdata : (file ++ List.replicate (padding file.length) 0).take n =
            file ++ List.replicate (n - file.length) 0 := by
          rw [take_append, take_of_length_le hbehind.le, take_replicate, Nat.min_eq_left hshort.le]
        rw [hdata]
        refine h.cut_behind fun r hrest => ?_
        rw [Reader.scan_eq, Reader.step_padding_short hrest.offset (by omega) hshort]
        exact ⟨_, rfl, hrest.err, rfl, rfl⟩
      · rw [take_of_length_le (by simp; omega)]
        exact (h.pad hpadding).whole.1
    · rw [take_append_of_le_length hinside]
      exact ih
  | @record file log h hpadding payload hsize ih =>
    rcases Nat.lt_or_ge n (file.length + (fragments update true file.length payload).length) with
      hshort | hfull
    · -- the new record does not end inside the prefix
      have hwithin : within (log ++ [(payload, ⟨file.length,
          file.length + (fragments update true file.length payload).length⟩)]) n =
            within log n := by
        unfold within
        simp [not_le.mpr hshort]
      rw [hwithin]
      rcases Nat.lt_or_ge file.length n with hbehind | hinside
      · rw [h.within_all hbehind.le, take_append, take_of_length_le hbehind.le]
        refine h.cut_behind fun r hrest => ?_
        obtain ⟨r', hscan, herr, hvalid, htail⟩ := Reader.scan_truncated hpadding hrest.follows
          (by simpa using hsize)
          (show n - file.length < (fragments update true file.length payload).length by omega)
        refine ⟨r', hscan, herr, hvalid, ?_⟩
        rw [htail, decide_eq_true (by omega), Bool.or_true]
      · rw [take_append_of_le_length hinside]
        exact ih
    · have hlaid := h.record hpadding payload hsize
      have hlength : (file ++ fragments update true file.length payload).length ≤ n := by
        rw [length_append]
        exact hfull
      rw [take_of_length_le hlength, hlaid.within_all hlength]
      exact hlaid.whole.1

end Laid

/-! ### Writers, crashes and repairs -/

/-- `Append` at the end of a block first writes the padding. -/
theorem fragments_padded (first : Bool) (offset : ℕ) (rest : Bytes) :
    fragments update first offset rest =
      List.replicate (padding offset) 0 ++
        fragments update first (offset + padding offset) rest := by
  have hpadding := (padding_spec offset).1
  have hroom : room (offset + padding offset) = room offset := by
    rw [room, hpadding, Nat.add_zero, room]
  rw [fragments, fragments.eq_def update first (offset + padding offset), hpadding, hroom]
  rfl

/-- What `Append` makes of a file is laid out, with the record where `Append` says it is. -/
theorem Laid.append {file : Bytes} {log : List Logged} (h : Laid update file log)
    {payload : Bytes} (hsize : payload.length ≤ maxRecordSize) :
    ∃ (written : Bytes) (position : Position),
      Wal.append update file payload = .ok (written, position) ∧
        Laid update written (log ++ [(payload, position)]) := by
  refine ⟨_, _, by rw [Wal.append, if_neg (not_lt.mpr hsize)], ?_⟩
  rcases Nat.eq_zero_or_pos (padding file.length) with hzero | hpositive
  · rw [hzero, Nat.add_zero, length_append]
    exact h.record hzero payload hsize
  · have hpadded := h.pad hpositive
    have hnext := hpadded.record (by simpa using (padding_spec file.length).1) payload hsize
    rw [fragments_padded, ← append_assoc, length_append]
    rw [length_append, length_replicate] at hnext ⊢
    exact hnext

theorem Laid.Cut.recovers {data : Bytes} {log : List Logged} (h : Laid.Cut update data log) :
    Recovers update data log :=
  ⟨h.records, h.err, h.validEnd, fun hclean => (h.clean hclean).shape⟩

/-- A log file, with the records it should hold. -/
structure Store where
  file : Bytes
  log : List Logged

/-- What happens to a log file: an append, the next writer after an orderly stop, a crash that
leaves a prefix of the file. -/
inductive Event where
  | append (payload : Bytes)
  | reopen
  | crash (cut : ℕ)

/-- The file that a crash has left is recovered, repaired if its tail is truncated, and opened
for the next writer. -/
def restart (update : Update) (data : Bytes) : Except Error Bytes :=
  match recover update data with
  | (_, _, some err) => .error err
  | (_, result, none) => do
      let repaired ← if result.tailTruncated then repairTail update data result else pure data
      openWriter update repaired

def Event.perform (update : Update) (s : Store) : Event → Except Error Store
  | append payload => do
      let (file, position) ← Wal.append update s.file payload
      return { file, log := s.log ++ [(payload, position)] }
  | reopen => do
      let file ← openWriter update s.file
      return { s with file }
  | crash cut => do
      let file ← restart update (s.file.take cut)
      return { file, log := within s.log cut }

def run (update : Update) (events : List Event) : Except Error Store :=
  events.foldlM (Event.perform update) ⟨[], []⟩

/-- The next writer continues a file that is laid out. -/
theorem Laid.openWriter {file : Bytes} {log : List Logged} (h : Laid update file log) :
    Wal.openWriter update file = .ok file := by
  obtain ⟨hcut, hclean⟩ := h.whole
  have herr := hcut.err
  rcases hscan : Reader.scan update file {} with ⟨records, r⟩
  rw [hscan] at herr hclean
  simp only [Wal.openWriter, recover, hscan]
  rw [show r.err = none from herr, show r.tail.isSome = false from hclean]
  rfl

/-- A restart keeps what `Recover` has found and leaves a file that is laid out. -/
theorem Laid.Cut.restart {data : Bytes} {log : List Logged} (h : Laid.Cut update data log) :
    ∃ file, Wal.restart update data = .ok file ∧ Laid update file log := by
  have herr := h.err
  have hvalid := h.validEnd
  have hclean := h.clean
  rcases hscan : Reader.scan update data {} with ⟨records, r⟩
  rw [hscan] at herr hvalid hclean
  have hrecover : recover update data =
      (records, ⟨r.validEnd, data.length, records.length, r.tail.isSome⟩, none) := by
    simp only [recover, hscan]
    rw [show r.err = none from herr]
  rw [Wal.restart, hrecover]
  cases htail : r.tail.isSome with
  | false =>
    have hlaid := hclean htail
    exact ⟨data, hlaid.openWriter, hlaid⟩
  | true =>
    refine ⟨data.take (lastStop log), ?_, h.trimmed⟩
    have hrepair : repairTail update data ⟨r.validEnd, data.length, records.length, true⟩ =
        .ok (data.take (lastStop log)) := by
      rw [repairTail, hrecover, htail]
      simp [← show r.validEnd = lastStop log from hvalid]
    show (repairTail update data _ >>= Wal.openWriter update) = _
    rw [hrepair]
    exact h.trimmed.openWriter

/-- One event keeps the file laid out as its log says. -/
theorem Event.perform_laid {s : Store} (h : Laid update s.file s.log) (event : Event)
    (hsize : ∀ payload, event = .append payload → payload.length ≤ maxRecordSize) :
    ∃ s', event.perform update s = .ok s' ∧ Laid update s'.file s'.log := by
  cases event with
  | append payload =>
    obtain ⟨written, position, happend, hlaid⟩ := h.append (hsize payload rfl)
    exact ⟨⟨written, s.log ++ [(payload, position)]⟩, by simp [perform, happend], hlaid⟩
  | reopen => exact ⟨s, by simp [perform, h.openWriter], h⟩
  | crash cut =>
    obtain ⟨file, hrestart, hlaid⟩ := (h.cut cut).restart
    exact ⟨⟨file, within s.log cut⟩, by simp [perform, hrestart], hlaid⟩

theorem foldlM_laid (events : List Event)
    (hsize : ∀ payload, Event.append payload ∈ events → payload.length ≤ maxRecordSize)
    {s : Store} (h : Laid update s.file s.log) :
    ∃ s', events.foldlM (Event.perform update) s = .ok s' ∧ Laid update s'.file s'.log := by
  induction events generalizing s with
  | nil => exact ⟨s, rfl, h⟩
  | cons event events ih =>
    obtain ⟨s₁, hperform, hlaid⟩ := event.perform_laid h
      fun payload heq => hsize payload (heq ▸ mem_cons_self)
    obtain ⟨s₂, hrun, hlaid₂⟩ := ih (fun payload hmem => hsize payload (mem_cons_of_mem _ hmem))
      hlaid
    refine ⟨s₂, ?_, hlaid₂⟩
    rw [foldlM_cons, hperform]
    exact hrun

/-- A file into which payloads were appended holds them all. -/
theorem run_appends {payloads : List Bytes}
    (hsize : ∀ payload ∈ payloads, payload.length ≤ maxRecordSize) :
    ∃ s, run update (payloads.map .append) = .ok s ∧ s.log.map (·.1) = payloads ∧
      Laid update s.file s.log := by
  suffices h : ∀ s : Store, Laid update s.file s.log →
      ∃ s', (payloads.map Event.append).foldlM (Event.perform update) s = .ok s' ∧
        s'.log.map (·.1) = s.log.map (·.1) ++ payloads ∧ Laid update s'.file s'.log from
    h ⟨[], []⟩ .nil
  induction payloads with
  | nil => exact fun s h => ⟨s, rfl, by simp, h⟩
  | cons payload rest ih =>
    intro s h
    obtain ⟨written, position, happend, hlaid⟩ := h.append (hsize payload mem_cons_self)
    obtain ⟨s', hrun, hlog, hlaid'⟩ := ih (fun p hp => hsize p (mem_cons_of_mem _ hp))
      ⟨written, s.log ++ [(payload, position)]⟩ hlaid
    refine ⟨s', ?_, by simp [hlog], hlaid'⟩
    rw [map_cons, foldlM_cons]
    simp only [Event.perform, happend]
    exact hrun

/-- Any number of writers, appends, crashes and repairs: each of them succeeds, and every prefix
of the file recovers to the surviving records that end inside it. -/
theorem every_cut_recovers (update : Update) (events : List Event)
    (hsize : ∀ payload, Event.append payload ∈ events → payload.length ≤ maxRecordSize) :
    ∃ s, run update events = .ok s ∧ ∀ n, Recovers update (s.file.take n) (within s.log n) := by
  obtain ⟨s, hrun, hlaid⟩ := @foldlM_laid update events hsize ⟨[], []⟩ .nil
  exact ⟨s, hrun, fun n => (hlaid.cut n).recovers⟩

/-- A record is cut off inside its header, the file is repaired, and a second writer appends. -/
theorem repaired_log_recovers :
    ∃ s, run (fun crc bytes => crc + bytes.length.toUInt32)
        [.append [1, 2, 3], .append [4], .crash 20, .append [], .reopen, .append [5]] = .ok s ∧
      ∀ n, Recovers (fun crc bytes => crc + bytes.length.toUInt32) (s.file.take n)
        (within s.log n) := by
  refine every_cut_recovers _ _ fun payload hmem => ?_
  simp only [mem_cons, Event.append.injEq, reduceCtorEq, not_mem_nil, or_false, false_or] at hmem
  rcases hmem with rfl | rfl | rfl | rfl <;> decide

end RivetDB.Wal
