import Paimon.Spec.Manifest

/-!
# Range reads of a vector index

`VindexFileReader` of `vindex/range_reader.rs`.  A positional read with one buffer to fill is one read of the file,
with a read-ahead for short buffers that the next call may use; otherwise the ranges are merged and read as a batch.

* `pread`: a call, where any read may fail or be short (`read`) and a batch arrives in any order (`arrival`);
* `MergeOk`: what the greedy merge keeps from one request to the next;
* `Filled`: the buffers that hold their bytes of the file;
* `Reachable`: the readers after any calls;
* `coalesced_reads_exact`: a call succeeds iff its requests are within the file and its reads succeed, fills every
  buffer with the bytes of the file, and reads at most twice the bytes asked for.

Permits, counters and a runtime that drops its tasks are left out.
-/

namespace Paimon.Vindex

open List

def scalarReadMax : Nat := 64
def scalarReadAhead : Nat := 64 * 1024
def rangeCoalesceGap : Nat := 16 * 1024
def u64Max : Nat := 2 ^ 64 - 1

inductive IoError where
  | invalidInput (message : String)
  | unexpectedEof (message : String)
  | other (message : String)
deriving DecidableEq

abbrev IoResult (α : Type) := Except IoError α

structure Range where
  start : Nat
  stop : Nat
deriving DecidableEq

structure CachedRange where
  start : Nat
  data : Bytes

def CachedRange.contains (c : CachedRange) (range : Range) : Bool :=
  c.start ≤ range.start && range.stop ≤ c.start + c.data.length

/-- a position and the length of the buffer to fill -/
structure ReadRequest where
  pos : Nat
  len : Nat
deriving DecidableEq

structure RequestedRange extends Range where
  requestIndex : Nat

structure MergedRange extends Range where
  requestIndices : List Nat
  requestedBytes : Nat

structure VindexFileReader where
  fileSize : Nat
  path : String
  scalarCache : Option CachedRange
  fileSize_le : fileSize ≤ u64Max

/-- what the underlying reader answers, perhaps with too few bytes -/
abbrev FileRead := Range → Except String Bytes

def slice (data : Bytes) (start len : Nat) : Bytes := (data.drop start).take len

/-- one range of a batch -/
def fetch (read : FileRead) (path : String) (range : Range) : IoResult Bytes :=
  match read range with
  | .error error => .error (.other s!"failed to read vindex file '{path}' range {range.start}..{range.stop}: {error}")
  | .ok data =>
    if data.length ≠ range.stop - range.start then
      .error (.unexpectedEof s!"short read for vindex file '{path}' range {range.start}..{range.stop}: expected {range.stop - range.start} bytes, got {data.length}")
    else .ok data

/-- the greedy merge; the last range pushed is the head -/
def mergeStep : List MergedRange → RequestedRange → List MergedRange
  | [], request => [⟨request.toRange, [request.requestIndex], request.stop - request.start⟩]
  | last :: merged, request =>
    let mergedEnd := max last.stop request.stop
    let requestedBytes := min (last.requestedBytes + (request.stop - request.start)) u64Max
    if request.start ≤ min (last.stop + rangeCoalesceGap) u64Max ∧
        mergedEnd - last.start ≤ min (requestedBytes * 2) u64Max then
      ⟨⟨last.start, mergedEnd⟩, last.requestIndices ++ [request.requestIndex], requestedBytes⟩ :: merged
    else ⟨request.toRange, [request.requestIndex], request.stop - request.start⟩ :: last :: merged

/-- the ranges of a batch; its order does not matter -/
def mergeRanges (requested : List RequestedRange) : List MergedRange :=
  (requested.insertionSort fun a b => a.start ≤ b.start).foldl mergeStep []

/-- the buffers of a merged range -/
def consume (requests : List ReadRequest) (m : MergedRange) (data : Bytes) (bufs : List Bytes) : List Bytes :=
  m.requestIndices.foldl (fun bufs j =>
    match requests[j]? with
    | some r => bufs.set j (slice data (r.pos - m.start) r.len)
    | none => bufs) bufs

/-- the requests with a buffer to fill -/
def nonEmpty (requests : List ReadRequest) : List (ReadRequest × Nat) := requests.zipIdx.filter (·.1.len ≠ 0)

def requestedRange (a : ReadRequest × Nat) : RequestedRange := ⟨⟨a.1.pos, a.1.pos + a.1.len⟩, a.2⟩

namespace VindexFileReader

variable (self : VindexFileReader)

def validateRange (pos len : Nat) : IoResult Range :=
  if u64Max < pos + len then .error (.invalidInput s!"vindex read range overflows for '{self.path}'")
  else if self.fileSize < pos + len then
    .error (.unexpectedEof s!"vindex read range {pos}..{pos + len} exceeds file '{self.path}' size {self.fileSize}")
  else .ok ⟨pos, pos + len⟩

/-- a short read goes on to the end of the read-ahead -/
def readAhead (range : Range) : Range :=
  ⟨range.start, min (max (min (range.start + scalarReadAhead) u64Max) range.stop) self.fileSize⟩

def readOne (read : FileRead) (pos len : Nat) : IoResult (VindexFileReader × Bytes) :=
  if len = 0 then .ok (self, [])
  else do
    let range ← self.validateRange pos len
    if len ≤ scalarReadMax then
      match self.scalarCache.filter (·.contains range) with
      | some cache => return (self, slice cache.data (range.start - cache.start) len)
      | none =>
        let data ← fetch read self.path (self.readAhead range)
        return ({ self with scalarCache := some ⟨range.start, data⟩ }, data.take len)
    else
      let data ← fetch read self.path range
      return (self, data)

def requestedRanges (requests : List ReadRequest) : IoResult (List RequestedRange) :=
  (nonEmpty requests).mapM fun (r, i) => do
    let range ← self.validateRange r.pos r.len
    return ⟨range, i⟩

/-- a batch whose responses arrive in the order of `arrived` -/
def fetchRangeBatch (read : FileRead) (requests : List ReadRequest) (arrived : List MergedRange) (bufs : List Bytes) :
    IoResult (List Bytes) :=
  arrived.foldlM (fun bufs m => do
    let data ← fetch read self.path m.toRange
    return consume requests m data bufs) bufs

def readMany (read : FileRead) (arrival : List MergedRange → List MergedRange) (requests : List ReadRequest)
    (bufs : List Bytes) : IoResult (List Bytes) := do
  let requested ← self.requestedRanges requests
  if requested.isEmpty then return bufs
  else self.fetchRangeBatch read requests (arrival (mergeRanges requested)) bufs

def pread (read : FileRead) (arrival : List MergedRange → List MergedRange) (requests : List ReadRequest)
    (bufs : List Bytes) : IoResult (VindexFileReader × List Bytes) :=
  match nonEmpty requests with
  | [(r, i)] => do
    let (self, bytes) ← self.readOne read r.pos r.len
    return (self, bufs.set i bytes)
  | _ => do
    let bufs ← self.readMany read arrival requests bufs
    return (self, bufs)

/-- what a call with one buffer to fill reads -/
def rangesOne (pos len : Nat) : List Range :=
  let range : Range := ⟨pos, pos + len⟩
  if len ≤ scalarReadMax then
    match self.scalarCache.filter (·.contains range) with
    | some _ => []
    | none => [self.readAhead range]
  else [range]

def rangesRead (requests : List ReadRequest) : List Range :=
  match nonEmpty requests with
  | [(r, _)] => self.rangesOne r.pos r.len
  | several => (mergeRanges (several.map requestedRange)).map MergedRange.toRange

end VindexFileReader

/-! ### Reads that succeed exactly when they should -/

/-- a computation that succeeds iff `cond` holds, with a result in `post` -/
structure Exact {α : Type} (cond : Prop) (post : α → Prop) (x : IoResult α) : Prop where
  ok : cond → ∃ a, x = .ok a ∧ post a
  error : ¬cond → ∃ e, x = .error e

namespace Exact

variable {α β : Type} {c d : Prop} {p q : α → Prop} {r : β → Prop} {x : IoResult α} {f : α → IoResult β}

theorem pure {a : α} (h : p a) : Exact True p (.ok a) := ⟨fun _ => ⟨a, rfl, h⟩, fun hn => absurd trivial hn⟩

theorem bind (hx : Exact c p x) (hf : c → ∀ a, p a → Exact d r (f a)) : Exact (c ∧ d) r (x >>= f) := by
  by_cases hc : c
  · obtain ⟨a, rfl, ha⟩ := hx.ok hc
    obtain ⟨hok, herr⟩ := hf hc a ha
    exact ⟨fun h => hok h.2, fun h => herr fun hd => h ⟨hc, hd⟩⟩
  · obtain ⟨e, rfl⟩ := hx.error hc
    exact ⟨fun h => absurd h.1 hc, fun _ => ⟨e, rfl⟩⟩

theorem congr (hx : Exact c p x) (hc : c ↔ d) (hp : ∀ a, p a → q a) : Exact d q x := by
  constructor
  · intro hd
    obtain ⟨a, ha, hpa⟩ := hx.ok (hc.mpr hd)
    exact ⟨a, ha, hp a hpa⟩
  · exact fun hd => hx.error fun h => hd (hc.mp h)

theorem exists_ok (hx : Exact c p x) : (∃ a, x = .ok a) ↔ c := by
  refine ⟨fun ⟨a, ha⟩ => not_not.mp fun hc => ?_, fun hc => (hx.ok hc).imp fun _ => And.left⟩
  obtain ⟨e, he⟩ := hx.error hc
  cases ha.symm.trans he

theorem post (hx : Exact c p x) {a : α} (ha : x = .ok a) : p a := by
  obtain ⟨b, hb, hp⟩ := hx.ok (hx.exists_ok.mp ⟨a, ha⟩)
  cases ha.symm.trans hb
  exact hp

end Exact

theorem slice_slice {file : Bytes} {start n p len : Nat} (hs : start ≤ p) (hn : p + len ≤ start + n) :
    slice (slice file start n) (p - start) len = slice file p len := by
  simp only [slice, drop_take, drop_drop, take_take]
  rw [show start + (p - start) = p by omega, min_eq_left (by omega)]

/-- a read that is not short -/
def Fetched (read : FileRead) (range : Range) : Prop :=
  ∃ data, read range = .ok data ∧ data.length = range.stop - range.start

/-- the underlying reader gives no other bytes than the file's -/
def Faithful (file : Bytes) (read : FileRead) : Prop :=
  ∀ range data, read range = .ok data → data.length = range.stop - range.start →
    data = slice file range.start data.length

variable {file : Bytes} {read : FileRead} {self : VindexFileReader} {requests : List ReadRequest}

theorem fetch_exact (h : Faithful file read) (path : String) (range : Range) : Exact (Fetched read range)
      (fun data => data.length = range.stop - range.start ∧ data = slice file range.start data.length)
      (fetch read path range) := by
  unfold fetch Fetched
  cases hd : read range with
  | error e => exact ⟨by simp, fun _ => ⟨_, rfl⟩⟩
  | ok data =>
    by_cases hl : data.length = range.stop - range.start
    · exact ⟨fun _ => ⟨data, if_neg (not_not.mpr hl), hl, h range data hd hl⟩, fun hn => absurd ⟨data, rfl, hl⟩ hn⟩
    · exact ⟨by simp [hl], fun _ => ⟨_, if_pos hl⟩⟩

/-! ### One buffer -/

/-- the reader of `file`, whose cache holds bytes of the file -/
structure Valid (file : Bytes) (reader : VindexFileReader) : Prop where
  size : reader.fileSize = file.length
  cached : ∀ c ∈ reader.scalarCache, c.data = slice file c.start c.data.length

namespace VindexFileReader

theorem validateRange_exact (hv : Valid file self) (pos len : Nat) :
    Exact (pos + len ≤ file.length) (· = ⟨pos, pos + len⟩) (self.validateRange pos len) := by
  have hle := self.fileSize_le
  rw [← hv.size, validateRange]
  refine ⟨fun h => ⟨_, ?_, rfl⟩, fun h => ?_⟩
  · rw [if_neg (by omega), if_neg (by omega)]
  · split
    · exact ⟨_, rfl⟩
    · exact ⟨_, if_pos (by omega)⟩

theorem readOne_exact (hv : Valid file self) (hread : Faithful file read) {pos len : Nat} (hlen : len ≠ 0) :
    Exact (pos + len ≤ file.length ∧ ∀ range ∈ self.rangesOne pos len, Fetched read range)
      (fun out => Valid file out.1 ∧ out.2 = slice file pos len) (self.readOne read pos len) := by
  rw [readOne, if_neg hlen]
  refine (validateRange_exact hv pos len).bind ?_
  rintro hin _ rfl
  unfold rangesOne
  split
  · cases hc : self.scalarCache.filter (·.contains ⟨pos, pos + len⟩) with
    | some cache =>
      obtain ⟨hmem, hcon⟩ := Option.filter_eq_some_iff.mp hc
      simp only [CachedRange.contains, Bool.and_eq_true, decide_eq_true_eq] at hcon
      refine (Exact.pure ⟨hv, ?_⟩).congr (by simp [hc]) fun _ => id
      rw [hv.cached cache hmem, slice_slice hcon.1 (by simpa using hcon.2)]
    | none =>
      refine ((fetch_exact hread _ _).bind fun _ data hdata => Exact.pure ⟨⟨hv.size, ?_⟩, ?_⟩).congr (by simp [hc])
        fun _ => id
      · rintro c ⟨⟩
        exact hdata.2
      · -- the read-ahead covers the buffer
        have hle : len ≤ data.length := by
          rw [hdata.1]
          simp only [readAhead, hv.size]
          omega
        have hcover : slice (slice file pos data.length) (pos - pos) len = slice file pos len :=
          slice_slice (Nat.le_refl pos) (Nat.add_le_add_left hle pos)
        rwa [← show data = slice file pos data.length from hdata.2, Nat.sub_self] at hcover
  · refine ((fetch_exact hread _ _).bind fun _ data hdata => Exact.pure ⟨hv, ?_⟩).congr (by simp) fun _ => id
    rw [hdata.2, hdata.1]
    simp

theorem requestedRanges_exact (hv : Valid file self) (requests : List ReadRequest) :
    Exact (∀ a ∈ nonEmpty requests, a.1.pos + a.1.len ≤ file.length) (· = (nonEmpty requests).map requestedRange)
      (self.requestedRanges requests) := by
  unfold requestedRanges
  induction nonEmpty requests with
  | nil => exact ⟨fun _ => ⟨[], rfl, rfl⟩, by simp⟩
  | cons a rest ih =>
    rw [mapM_cons, bind_assoc]
    refine ((validateRange_exact hv _ _).bind fun _ _ ha => ih.bind fun _ _ hb => Exact.pure ?_).congr (by simp) fun _ => id
    simp [ha, hb, requestedRange]

end VindexFileReader

theorem mem_nonEmpty {a : ReadRequest × Nat} : a ∈ nonEmpty requests ↔ requests[a.2]? = some a.1 ∧ a.1.len ≠ 0 := by
  simp [nonEmpty, mem_zipIdx_iff_getElem?]

/-! ### The greedy merge -/

/-- after the requests `seen`: each is in a range, and the ranges are at most twice their bytes -/
structure MergeOk (seen : List RequestedRange) (merged : List MergedRange) : Prop where
  covers : ∀ q ∈ seen, ∃ m ∈ merged, q.requestIndex ∈ m.requestIndices
  within : ∀ m ∈ merged, ∀ j ∈ m.requestIndices, ∃ q ∈ seen, q.requestIndex = j ∧ m.start ≤ q.start ∧ q.stop ≤ m.stop
  starts : ∀ m ∈ merged, ∃ q ∈ seen, q.start = m.start
  amplified : ∀ m ∈ merged, m.stop - m.start ≤ 2 * m.requestedBytes
  bytes : (merged.map MergedRange.requestedBytes).sum ≤ (seen.map fun q => q.stop - q.start).sum

namespace MergeOk

variable {seen : List RequestedRange} {merged : List MergedRange} (h : MergeOk seen merged)
include h

theorem perm {seen' : List RequestedRange} (hp : seen ~ seen') : MergeOk seen' merged := by
  obtain ⟨hc, hw, hs, ha, hb⟩ := h
  simp only [hp.mem_iff] at hc hw hs
  exact ⟨hc, hw, hs, ha, hb.trans_eq (hp.map _).sum_eq⟩

theorem push (q : RequestedRange) :
    MergeOk (q :: seen) (⟨q.toRange, [q.requestIndex], q.stop - q.start⟩ :: merged) := by
  obtain ⟨hc, hw, hs, ha, hb⟩ := h
  refine ⟨?_, ?_, ?_, ?_, by simpa using hb⟩ <;> simp only [forall_mem_cons, exists_mem_cons_iff, mem_singleton]
  · exact ⟨.inl trivial, fun p hp => .inr (hc p hp)⟩
  · exact ⟨by simp, fun m hm j hj => .inr (hw m hm j hj)⟩
  · exact ⟨.inl trivial, fun m hm => .inr (hs m hm)⟩
  · exact ⟨by omega, ha⟩

theorem step {q : RequestedRange} (hq : ∀ p ∈ seen, p.start ≤ q.start) : MergeOk (q :: seen) (mergeStep merged q) := by
  cases merged with
  | nil => exact h.push q
  | cons last merged =>
    rw [mergeStep]
    split
    · obtain ⟨p, hp, hstart⟩ := h.starts last (by simp)
      have hle : last.start ≤ q.start := hstart ▸ hq p hp
      obtain ⟨hc, hw, hs, ha, hb⟩ := h
      refine ⟨?_, ?_, ?_, ?_, ?_⟩ <;> simp only [forall_mem_cons, exists_mem_cons_iff, map_cons, sum_cons] at *
      · exact ⟨.inl (by simp), fun p hp => (hc p hp).imp_left (mem_append_left _)⟩
      · refine ⟨fun j hj => ?_, fun m hm j hj => .inr (hw.2 m hm j hj)⟩
        rcases mem_append.mp hj with hj | hj
        · obtain ⟨p, hp, hi, h₁, h₂⟩ := hw.1 j hj
          exact .inr ⟨p, hp, hi, h₁, h₂.trans (le_max_left _ _)⟩
        · exact .inl ⟨(mem_singleton.mp hj).symm, hle, le_max_right _ _⟩
      · exact ⟨.inr hs.1, fun m hm => .inr (hs.2 m hm)⟩
      · exact ⟨by omega, ha.2⟩
      · omega
    · exact h.push q

end MergeOk

theorem mergeRanges_ok (requested : List RequestedRange) : MergeOk requested (mergeRanges requested) := by
  have hsort := pairwise_insertionSort (fun a b : RequestedRange => a.start ≤ b.start) requested
  refine MergeOk.perm ?_ (perm_insertionSort (fun a b : RequestedRange => a.start ≤ b.start) requested)
  unfold mergeRanges
  generalize requested.insertionSort (fun a b => a.start ≤ b.start) = sorted at hsort ⊢
  induction sorted using reverseRecOn with
  | nil => constructor <;> simp
  | append_singleton seen q ih =>
    rw [pairwise_append] at hsort
    rw [foldl_append]
    exact ((ih hsort.1).step fun p hp => hsort.2.2 p hp q (by simp)).perm (perm_append_singleton q seen).symm

/-! ### Several buffers -/

/-- the buffers of the requests in `done`, and the empty ones, hold their bytes of the file -/
structure Filled (file : Bytes) (requests : List ReadRequest) (done : Nat → Prop) (bufs : List Bytes) : Prop where
  length : bufs.length = requests.length
  bytes : ∀ j r, requests[j]? = some r → done j ∨ r.len = 0 → bufs[j]? = some (slice file r.pos r.len)

variable {done : Nat → Prop} {bufs : List Bytes}

theorem Filled.set (h : Filled file requests done bufs) {i : Nat} {r : ReadRequest} (hi : requests[i]? = some r) :
    Filled file requests (fun j => done j ∨ j = i) (bufs.set i (slice file r.pos r.len)) := by
  refine ⟨by simpa using h.length, fun j r' hj hdone => ?_⟩
  by_cases hij : i = j
  · obtain rfl : r = r' := by simpa [hij, hj] using hi.symm
    rw [← hij, getElem?_set_self (h.length ▸ (List.getElem?_eq_some_iff.mp hi).1)]
  · rw [getElem?_set_ne hij]
    exact h.bytes j r' hj (hdone.imp_left fun h => h.resolve_right (Ne.symm hij))

theorem Filled.consume {m : MergedRange} {data : Bytes} (hdata : data = slice file m.start (m.stop - m.start))
    (hm : ∀ j ∈ m.requestIndices, ∃ r, requests[j]? = some r ∧ m.start ≤ r.pos ∧ r.pos + r.len ≤ m.stop)
    (h : Filled file requests done bufs) :
    Filled file requests (fun j => done j ∨ j ∈ m.requestIndices) (consume requests m data bufs) := by
  unfold Vindex.consume
  generalize m.requestIndices = indices at hm ⊢
  induction indices generalizing done bufs with
  | nil => simpa using h
  | cons i indices ih =>
    obtain ⟨⟨r, hr, hstart, hstop⟩, hrest⟩ := forall_mem_cons.mp hm
    have hbytes : slice data (r.pos - m.start) r.len = slice file r.pos r.len := by
      rw [hdata, slice_slice hstart (by omega)]
    simpa [hr, hbytes, or_assoc] using ih (h.set hr) hrest

theorem VindexFileReader.fetchRangeBatch_exact (hread : Faithful file read) {arrived : List MergedRange}
    (hm : ∀ m ∈ arrived, ∀ j ∈ m.requestIndices,
      ∃ r, requests[j]? = some r ∧ m.start ≤ r.pos ∧ r.pos + r.len ≤ m.stop)
    (h : Filled file requests done bufs) :
    Exact (∀ m ∈ arrived, Fetched read m.toRange)
      (Filled file requests fun j => done j ∨ ∃ m ∈ arrived, j ∈ m.requestIndices)
      (self.fetchRangeBatch read requests arrived bufs) := by
  induction arrived generalizing done bufs with
  | nil => exact (Exact.pure h).congr (by simp) fun _ hf => by simpa using hf
  | cons m arrived ih =>
    obtain ⟨hhead, hrest⟩ := forall_mem_cons.mp hm
    have hstep := (fetch_exact hread self.path m.toRange).bind fun _ data hdata =>
      Exact.pure (h.consume (hdata.1 ▸ hdata.2) hhead)
    rw [fetchRangeBatch, foldlM_cons]
    refine (hstep.bind fun _ _ hf => ih hrest hf).congr (by simp) fun _ hf => ?_
    simpa [or_assoc] using hf

/-! ### Calls -/

variable {arrival : List MergedRange → List MergedRange}

theorem merged_covers {a : ReadRequest × Nat} (ha : a ∈ nonEmpty requests) :
    ∃ m ∈ mergeRanges ((nonEmpty requests).map requestedRange), a.2 ∈ m.requestIndices :=
  (mergeRanges_ok _).covers _ (mem_map_of_mem ha)

theorem merged_within {m : MergedRange} (hm : m ∈ mergeRanges ((nonEmpty requests).map requestedRange)) {j : Nat}
    (hj : j ∈ m.requestIndices) :
    ∃ r, requests[j]? = some r ∧ m.start ≤ r.pos ∧ r.pos + r.len ≤ m.stop := by
  obtain ⟨q, hq, rfl, hle⟩ := (mergeRanges_ok _).within m hm j hj
  obtain ⟨a, ha, rfl⟩ := mem_map.mp hq
  exact ⟨a.1, (mem_nonEmpty.mp ha).1, hle⟩

theorem Filled.of_lengths (hbufs : bufs.map List.length = requests.map ReadRequest.len) :
    Filled file requests (fun _ => False) bufs := by
  refine ⟨by simpa using congrArg List.length hbufs, fun j r hj hempty => ?_⟩
  have hget := congrArg (·[j]?) hbufs
  obtain ⟨buf, hbuf, hlen⟩ : ∃ buf, bufs[j]? = some buf ∧ buf.length = r.len := by simpa [hj] using hget
  obtain rfl : buf = [] := length_eq_zero_iff.mp (hlen.trans (hempty.resolve_left id))
  simp [hbuf, slice, ← hlen]

theorem Filled.eq (h : Filled file requests done bufs) (hall : ∀ a ∈ nonEmpty requests, done a.2) :
    bufs = requests.map fun r => slice file r.pos r.len := by
  refine ext_getElem? fun j => ?_
  cases hj : requests[j]? with
  | none => simpa [hj, h.length] using List.getElem?_eq_none_iff.mp hj
  | some r =>
    have hdone : r.len ≠ 0 → done j := fun hne => hall (r, j) (mem_nonEmpty.mpr ⟨hj, hne⟩)
    simpa [hj] using h.bytes j r hj (or_iff_not_imp_right.mpr hdone)

namespace VindexFileReader

variable (hv : Valid file self) (hread : Faithful file read) (harrival : ∀ merged, arrival merged ~ merged)
  (hstart : Filled file requests (fun _ => False) bufs)
include hv hread harrival hstart

theorem readMany_exact : Exact ((∀ a ∈ nonEmpty requests, a.1.pos + a.1.len ≤ file.length) ∧
        ∀ m ∈ mergeRanges ((nonEmpty requests).map requestedRange), Fetched read m.toRange)
      (· = requests.map fun r => slice file r.pos r.len) (self.readMany read arrival requests bufs) := by
  refine (requestedRanges_exact hv requests).bind ?_
  rintro - _ rfl
  split
  · next hempty =>
    have hnil : nonEmpty requests = [] := by simpa using hempty
    have hbufs := hstart.eq (by simp [hnil])
    exact ⟨fun _ => ⟨bufs, rfl, hbufs⟩, fun hn => absurd (by simp [hnil, mergeRanges]) hn⟩
  · refine (fetchRangeBatch_exact hread (fun m hm j => merged_within ((harrival _).mem_iff.mp hm)) hstart).congr
      (by simp [(harrival _).mem_iff]) fun _ hf => hf.eq fun a ha => .inr ?_
    simpa [(harrival _).mem_iff] using merged_covers ha

theorem pread_exact : Exact ((∀ a ∈ nonEmpty requests, a.1.pos + a.1.len ≤ file.length) ∧
        ∀ range ∈ self.rangesRead requests, Fetched read range)
      (fun out => Valid file out.1 ∧ out.2 = requests.map fun r => slice file r.pos r.len)
      (self.pread read arrival requests bufs) := by
  unfold pread rangesRead
  split
  · next r i hone =>
    have hmem : (r, i) ∈ nonEmpty requests := by simp [hone]
    obtain ⟨hr, hlen⟩ := mem_nonEmpty.mp hmem
    refine ((readOne_exact hv hread hlen).bind (d := True) fun _ out hout => Exact.pure ⟨hout.1, ?_⟩).congr
      (by simp [hone]) fun _ => id
    rw [hout.2]
    exact (hstart.set hr).eq (by simp [hone])
  · have hmany := readMany_exact hv hread harrival hstart
    exact (hmany.bind (d := True) fun _ _ hf => Exact.pure ⟨hv, hf⟩).congr (by simp) fun _ => id

end VindexFileReader

/-- the readers of `file` after any calls; a failed call leaves the reader as it was -/
inductive Reachable (file : Bytes) : VindexFileReader → Prop
  | new (path : String) (h : file.length ≤ u64Max) : Reachable file ⟨file.length, path, none, h⟩
  | pread {self self' : VindexFileReader} {read : FileRead} {arrival : List MergedRange → List MergedRange}
      {requests : List ReadRequest} {bufs bufs' : List Bytes} (h : Reachable file self) (hread : Faithful file read)
      (harrival : ∀ merged, arrival merged ~ merged) (hbufs : bufs.map length = requests.map ReadRequest.len)
      (hcall : self.pread read arrival requests bufs = .ok (self', bufs')) : Reachable file self'

theorem Reachable.valid (h : Reachable file self) : Valid file self := by
  induction h with
  | new path h => exact ⟨rfl, nofun⟩
  | pread _ hread harrival hbufs hcall ih =>
    exact ((VindexFileReader.pread_exact ih hread harrival (.of_lengths hbufs)).post hcall).1

theorem sum_nonEmpty (requests : List ReadRequest) :
    ((nonEmpty requests).map fun a => a.1.len).sum = (requests.map ReadRequest.len).sum := by
  have hfst : requests.map ReadRequest.len = requests.zipIdx.map fun a => a.1.len := by
    conv_lhs => rw [← zipIdx_map_fst 0 requests, map_map]
    rfl
  rw [nonEmpty, hfst]
  induction requests.zipIdx with
  | nil => rfl
  | cons a rest ih => by_cases ha : a.1.len = 0 <;> simp_all

/-- **Coalesced reads are exact and bounded.** -/
theorem coalesced_reads_exact (h : Reachable file self) (hread : Faithful file read)
    (harrival : ∀ merged, arrival merged ~ merged) (hbufs : bufs.map length = requests.map ReadRequest.len) :
    ((∃ out, self.pread read arrival requests bufs = .ok out) ↔
      (∀ r ∈ requests, r.len ≠ 0 → r.pos + r.len ≤ file.length) ∧
        ∀ range ∈ self.rangesRead requests, Fetched read range) ∧
    (∀ self' bufs', self.pread read arrival requests bufs = .ok (self', bufs') →
      bufs' = requests.map fun r => slice file r.pos r.len) ∧
    ((nonEmpty requests).length ≠ 1 → (∀ r ∈ requests, r.len ≠ 0 →
        ∃ range ∈ self.rangesRead requests, range.start ≤ r.pos ∧ r.pos + r.len ≤ range.stop) ∧
      ((self.rangesRead requests).map fun range => range.stop - range.start).sum ≤
        2 * (requests.map ReadRequest.len).sum) := by
  have hall : ∀ {P : ReadRequest → Prop}, (∀ a ∈ nonEmpty requests, P a.1) ↔ ∀ r ∈ requests, r.len ≠ 0 → P r := by
    intro P
    simp only [mem_nonEmpty]
    constructor
    · intro h r hr hlen
      obtain ⟨i, hi⟩ := mem_iff_getElem?.mp hr
      exact h (r, i) ⟨hi, hlen⟩
    · exact fun h a ha => h a.1 (mem_of_getElem? ha.1) ha.2
  have hexact := VindexFileReader.pread_exact h.valid hread harrival (.of_lengths hbufs)
  refine ⟨?_, fun _ _ hcall => (hexact.post hcall).2, fun hmany => ?_⟩
  · rw [hexact.exists_ok, hall (P := fun r => r.pos + r.len ≤ file.length)]
  have hranges : self.rangesRead requests =
      (mergeRanges ((nonEmpty requests).map requestedRange)).map MergedRange.toRange := by
    unfold VindexFileReader.rangesRead
    split
    · next hone => exact absurd (by rw [hone]; rfl) hmany
    · rfl
  rw [hranges, ← sum_nonEmpty]
  obtain ⟨-, -, -, hamplified, hbytes⟩ := mergeRanges_ok ((nonEmpty requests).map requestedRange)
  constructor
  · refine hall.mp fun a ha => ?_
    obtain ⟨m, hm, hi⟩ := merged_covers ha
    obtain ⟨r, hr, hle⟩ := merged_within hm hi
    obtain rfl : a.1 = r := by simpa [(mem_nonEmpty.mp ha).1] using hr
    exact ⟨m.toRange, mem_map_of_mem hm, hle⟩
  · have hsum := sum_le_sum hamplified
    simp only [sum_map_mul_left, map_map, Function.comp_def, requestedRange, Nat.add_sub_cancel_left] at hsum hbytes ⊢
    exact hsum.trans (Nat.mul_le_mul_left 2 hbytes)

/-- a reader that never fails -/
def reading (file : Bytes) : FileRead := fun range => .ok (slice file range.start (range.stop - range.start))

theorem faithful_reading (file : Bytes) : Faithful file (reading file) := by
  rintro range data ⟨⟩ hlen
  rw [hlen]

def tenBytes : Bytes := [0, 1, 2, 3, 4, 5, 6, 7, 8, 9]

def threeRequests : List ReadRequest := [⟨6, 2⟩, ⟨3, 0⟩, ⟨4, 3⟩]

/-- two buffers filled out of one range -/
theorem coalesced_reads_exact_two : ∃ self',
    (VindexFileReader.mk tenBytes.length "f" none (by decide)).pread (reading tenBytes) id threeRequests
      [[0, 0], [], [0, 0, 0]] = .ok (self', [[6, 7], [], [4, 5, 6]]) := by
  have hnew : Reachable tenBytes ⟨tenBytes.length, "f", none, by decide⟩ := .new "f" (by decide)
  have hbufs : ([[0, 0], [], [0, 0, 0]] : List Bytes).map length = threeRequests.map ReadRequest.len := rfl
  obtain ⟨hiff, hbytes, -⟩ := coalesced_reads_exact hnew (faithful_reading tenBytes) Perm.refl hbufs
  obtain ⟨⟨self', bufs'⟩, hcall⟩ := hiff.mpr ⟨by decide, fun range hr => ⟨_, rfl, by revert range; decide⟩⟩
  obtain rfl : bufs' = [[6, 7], [], [4, 5, 6]] := (hbytes self' bufs' hcall).trans (by decide)
  exact ⟨self', hcall⟩

end Paimon.Vindex
