import Go420coin.Bloombits.Matcher

/-!
# Log filtering (`420/filters/filter.go`)

A range filter looks for the logs of blocks `begin` to `end` with one of the addresses (if any are
given) and, at each position `i`, one of the topics of the `i`-th topic list (an empty list is a
wildcard).  `Logs` searches the blocks the bloom index covers through the matcher (`indexedLogs`),
then the rest block by block (`unindexedLogs`), where `blockLogs` tests the header's bloom before
reading the block's logs.

The criteria become the matcher's filters (`rangeFilters`): the matcher accepts a bloom exactly when
`bloomFilter` does (`accepts_rangeFilters`).  A block's bloom is `CreateBloom` of its receipts, so
`bloomFilter` never rejects a block with a matching log (`bloomFilter_of_mem_filterLogs`), and
`blockLogs` returns exactly the matching logs of its receipts (`blockLogs_eq_filterLogs`).  So a
search over a correct index, with bounds of `-1` or more, returns exactly the matching logs of every
block of the range up to the head (`logs_eq_filterLogs`).

The bounds are `int64`s as Go reads them: a `begin` of `-2` is searched from the pending block, then
the latest, and an `end` below `-1` is read as a `uint64`, whose `int64` ends the block by block
search before it starts.  The backend is the chain as data (`Chain`); its errors, the cancellation
of the context and the single-block filter are left out.
-/

namespace Go420coin.Filters

open Go420coin.Types Go420coin.Bloombits Go420coin.Bitutil

/-- `Filter`, the fields a range search reads. -/
structure Filter where
  addresses : List Address
  topics : List (List Hash)
  begin : Int
  end_ : Int
  matcher : Matcher

/-- What a range search reads of the chain through its backend: the number of the latest block, the
block `HeaderByNumber` gives for the pending block (`pending`: a full node's miner builds it on the
head, a light client answers with the head), the bloom of each block's header, its logs (`GetLogs`)
and receipts (`GetReceipts`), the status of the bloom index (`BloomStatus`: the section size and the
sections indexed) and the vectors its retrievals deliver. -/
structure Chain where
  head : Nat
  pending : Nat
  bloomOf : Nat → Bloom
  logsOf : Nat → List (List Log)
  receiptsOf : Nat → List Receipt
  sectionSize : Nat
  sections : Nat
  fetch : Nat → Nat → List UInt8

/-- `includes`. -/
def includes (addresses : List Address) (a : Address) : Bool := addresses.any (· == a)

/-- The test of `filterLogs` on one log: within the block bounds where they are given and not
negative, one of the addresses if any, at least as many topics as topic lists, and at each position
one of the topics of its list, or any for an empty list. -/
def logMatches (fromBlock toBlock : Option Int) (addresses : List Address) (topics : List (List Hash)) (log : Log) :
    Bool :=
  !(fromBlock.any fun b => decide (0 ≤ b) && decide (log.blockNumber < b.toNat)) &&
    !(toBlock.any fun b => decide (0 ≤ b) && decide (b.toNat < log.blockNumber)) &&
    (decide (addresses.length = 0) || includes addresses log.address) &&
    decide (topics.length ≤ log.topics.length) &&
    (topics.zip log.topics).all fun p => decide (p.1.length = 0) || p.1.any (· == p.2)

/-- `filterLogs`. -/
def filterLogs (logs : List Log) (fromBlock toBlock : Option Int) (addresses : List Address)
    (topics : List (List Hash)) : List Log :=
  logs.filter (logMatches fromBlock toBlock addresses topics)

/-- `checkMatches` on a block: the matching logs of `GetLogs`; where the first of them lacks its
transaction hash (a light client's logs), the matching logs of the receipts instead. -/
def checkMatches (addresses : List Address) (topics : List (List Hash)) (logsList : List (List Log))
    (receipts : List Receipt) : List Log :=
  let logs := filterLogs logsList.flatten none none addresses topics
  match logs.head? with
  | none => []
  | some first =>
    if first.txHash = emptyHash then filterLogs (receipts.flatMap (·.logs)) none none addresses topics else logs

section Keccak

variable (keccak : List UInt8 → List UInt8)

/-- The bloombits filter system `NewRangeFilter` flattens the criteria into: the addresses, if any
are given, then each topic list.  No clause is nil: `Bytes()` of an address or a hash is not. -/
def rangeFilters (addresses : List Address) (topics : List (List Hash)) : List (List (Option (List UInt8))) :=
  (if addresses.length > 0 then [addresses.map fun address => some address.toList] else []) ++
    topics.map fun topicList => topicList.map fun topic => some topic.toList

/-- `NewRangeFilter`, with the section size `BloomStatus` reports. -/
def newRangeFilter (size : Nat) (begin end_ : Int) (addresses : List Address) (topics : List (List Hash)) :
    Filter :=
  { addresses, topics, begin, end_, matcher := newMatcher keccak size (rangeFilters addresses topics) }

/-- `bloomFilter`: one of the addresses, if any are given, and for each topic list one of its
topics, or any for an empty list, test true in the bloom. -/
def bloomFilter (bloom : Bloom) (addresses : List Address) (topics : List (List Hash)) : Bool :=
  (decide (addresses.length = 0) || addresses.any fun addr => bloom.test keccak addr.toList) &&
    topics.all fun sub => decide (sub.length = 0) || sub.any fun topic => bloom.test keccak topic.toList

/-- `blockLogs`: the matching logs of a block whose header's bloom passes `bloomFilter`. -/
def blockLogs (bloom : Bloom) (addresses : List Address) (topics : List (List Hash)) (logsList : List (List Log))
    (receipts : List Receipt) : List Log :=
  if bloomFilter keccak bloom addresses topics then checkMatches addresses topics logsList receipts else []

/-- `HeaderByNumber`: the block of a number up to the head, the latest block for
`rpc.LatestBlockNumber` (`-1`), the pending block for `rpc.PendingBlockNumber` (`-2`); no header for
a number past the head, nor for a lower negative one, which the backend reads as a `uint64` past
every block. -/
def Chain.headerByNumber (c : Chain) (n : Int) : Option Nat :=
  if n = -1 then some c.head
  else if n = -2 then some c.pending
  else if 0 ≤ n ∧ n.toNat ≤ c.head then some n.toNat else none

/-- The loop of `unindexedLogs`, `k` numbers from `n` on: the `blockLogs` of each block, stopping at
the first number without a header. -/
def unindexedLoop (f : Filter) (c : Chain) : Nat → Int → List Log
  | 0, _ => []
  | k + 1, n =>
    match c.headerByNumber n with
    | none => []
    | some b =>
      blockLogs keccak (c.bloomOf b) f.addresses f.topics (c.logsOf b) (c.receiptsOf b) ++ unindexedLoop f c k (n + 1)

/-- `unindexedLogs`: the numbers from `f.begin` up to `int64(end)`. -/
def unindexedLogs (f : Filter) (c : Chain) (begin end_ : Int) : List Log :=
  unindexedLoop keccak f c (end_ + 1 - begin).toNat begin

end Keccak

/-- `uint64(x)` of an `int64`. -/
def uint64Of (x : Int) : Nat := (x % 2 ^ 64).toNat

/-- `int64(x)` of a `uint64`. -/
def int64Of (x : Nat) : Int := if x < 2 ^ 63 then x else x - 2 ^ 64

/-- `indexedLogs` from block `begin` to `end`: `checkMatches` on each block the matcher sends,
stopping at one whose header is missing; with the block the search goes on from, after the last
block sent (`f.begin = number + 1`) or after `end`.  `none` where the session fails. -/
def indexedLogs (f : Filter) (c : Chain) (begin end_ : Nat) : Option (List Log × Nat) :=
  (f.matcher.start c.fetch begin end_).map fun numbers =>
    match numbers.find? (c.head < ·) with
    | none => (numbers.flatMap fun n => checkMatches f.addresses f.topics (c.logsOf n) (c.receiptsOf n), end_ + 1)
    | some missing =>
      ((numbers.takeWhile (· ≤ c.head)).flatMap fun n => checkMatches f.addresses f.topics (c.logsOf n) (c.receiptsOf n),
        missing + 1)

/-- `Logs` for a range filter: a `begin` of `-1` becomes the head and an `end` of `-1` the head, any
other `end` is read as a `uint64`; the blocks of the indexed sections go through the matcher, from
`uint64(begin)`, then the search goes on number by number, up to `int64(end)`.  The indexed count
`sections * size` is the exact product.  `none` where the matcher's session fails. -/
def Filter.logs (keccak : List UInt8 → List UInt8) (f : Filter) (c : Chain) : Option (List Log) :=
  let begin : Int := if f.begin = -1 then int64Of c.head else f.begin
  let end_ : Nat := if f.end_ = -1 then c.head else uint64Of f.end_
  let indexed := c.sections * c.sectionSize
  if indexed > uint64Of begin then
    (indexedLogs f c (uint64Of begin) (if indexed > end_ then end_ else indexed - 1)).map fun r =>
      r.1 ++ unindexedLogs keccak f c r.2 (int64Of end_)
  else some (unindexedLogs keccak f c begin (int64Of end_))

/-! ### The matcher of a range filter -/

section Keccak

variable (keccak : List UInt8 → List UInt8)

private theorem mapM_some_map (keys : List (List UInt8)) :
    (keys.map some).mapM (fun clause => clause.map (calcBloomIndexes keccak)) =
      some (keys.map (calcBloomIndexes keccak)) := by
  induction keys with
  | nil => rfl
  | cons k keys ih =>
    rw [List.map_cons, List.mapM_cons, ih]
    rfl

/-- `NewMatcher` on clauses that are all given skips the empty filters and indexes the others. -/
theorem newMatcher_filters_some (size : Nat) (ls : List (List (List UInt8))) :
    (newMatcher keccak size (ls.map fun keys => keys.map some)).filters =
      (ls.filter fun keys => keys.length ≠ 0).map fun keys => keys.map (calcBloomIndexes keccak) := by
  show List.filterMap _ _ = _
  induction ls with
  | nil => rfl
  | cons keys ls ih =>
    rw [List.map_cons, List.filter_cons]
    by_cases h : keys.length = 0
    · rw [List.filterMap_cons_none (by rw [List.length_map, if_pos h]), ih, if_neg (by simp [h])]
    · rw [List.filterMap_cons_some (by rw [List.length_map, if_neg h, mapM_some_map]), ih,
        if_pos (by simp [h]), List.map_cons]

/-- The keys of the criteria, address list first if any, as `rangeFilters` lists them. -/
theorem rangeFilters_eq (addresses : List Address) (topics : List (List Hash)) :
    rangeFilters addresses topics =
      ((if addresses.length > 0 then [addresses.map (·.toList)] else []) ++ topics.map (·.map (·.toList))).map
        fun keys => keys.map some := by
  unfold rangeFilters
  rw [List.map_append]
  split_ifs <;> simp

/-- A filter of the matcher hits a bloom where one of its keys tests true. -/
theorem hits_map_calcBloomIndexes (bloom : Bloom) (keys : List (List UInt8)) :
    hits bloom (keys.map (calcBloomIndexes keccak)) = keys.any fun d => bloom.test keccak d := by
  rw [hits, List.any_map]
  apply List.any_congr rfl
  intro d
  rw [Function.comp_apply, calcBloomIndexes_eq, test_eq]

/-- The matcher of a range filter accepts a bloom exactly when `bloomFilter` does: an empty topic
list, skipped by `NewMatcher`, is `bloomFilter`'s wildcard. -/
theorem accepts_rangeFilters (size : Nat) (bloom : Bloom) (addresses : List Address) (topics : List (List Hash)) :
    (newMatcher keccak size (rangeFilters addresses topics)).accepts bloom = bloomFilter keccak bloom addresses topics := by
  -- a key list is one filter, skipped when empty
  have hkeys : ∀ ls : List (List (List UInt8)),
      ((ls.filter fun keys => keys.length ≠ 0).map fun keys => keys.map (calcBloomIndexes keccak)).all (hits bloom) =
        ls.all fun keys => decide (keys.length = 0) || keys.any fun d => bloom.test keccak d := by
    intro ls
    induction ls with
    | nil => rfl
    | cons keys ls ih =>
      rw [List.filter_cons, List.all_cons]
      by_cases h : keys.length = 0
      · rw [if_neg (by simp [h]), ih, decide_eq_true h, Bool.true_or, Bool.true_and]
      · rw [if_pos (by simp [h]), List.map_cons, List.all_cons, ih, hits_map_calcBloomIndexes, decide_eq_false h,
          Bool.false_or]
  rw [Matcher.accepts, rangeFilters_eq, newMatcher_filters_some, hkeys, List.all_append, bloomFilter, List.all_map]
  congr 1
  · split_ifs with h
    · rw [List.all_cons, List.all_nil, Bool.and_true, List.length_map, List.any_map]
      rfl
    · rw [List.all_nil, decide_eq_true (by omega), Bool.true_or]
  · apply List.all_congr rfl
    intro sub
    rw [Function.comp_apply, List.length_map, List.any_map]
    rfl

/-! ### The bloom test loses no matching log -/

/-- A topic test true of every topic of a log passes the topic lists the log matches: the list at
position `i` holds the log's `i`-th topic, unless it is empty.  The induction follows the topic
lists and the log's topics together, as `zip` pairs them. -/
theorem all_topics_of_zip {t : Hash → Bool} : ∀ (topics : List (List Hash)) (ts : List Hash),
    topics.length ≤ ts.length →
    ((topics.zip ts).all fun p => decide (p.1.length = 0) || p.1.any (· == p.2)) = true →
    (∀ x ∈ ts, t x = true) → (topics.all fun sub => decide (sub.length = 0) || sub.any t) = true
  | [], _, _, _, _ => rfl
  | _ :: _, [], hlen, _, _ => absurd hlen (by simp)
  | sub :: topics, x :: ts, hlen, hzip, ht => by
    rw [List.zip_cons_cons, List.all_cons, Bool.and_eq_true] at hzip
    rw [List.all_cons, Bool.and_eq_true]
    refine ⟨?_, all_topics_of_zip topics ts (by simpa using hlen) hzip.2 fun y hy => ht y (List.mem_cons_of_mem x hy)⟩
    rcases Bool.or_eq_true_iff.1 hzip.1 with hnil | hany
    · rw [hnil, Bool.true_or]
    · -- the list holds the log's topic at this position
      obtain ⟨y, hy, hyx⟩ := List.any_eq_true.1 hany
      rw [beq_iff_eq] at hyx
      rw [List.any_eq_true.2 ⟨y, hy, hyx ▸ ht x List.mem_cons_self⟩, Bool.or_true]

/-- The bloom of a block's receipts passes `bloomFilter` for any criteria one of their logs matches. -/
theorem bloomFilter_of_logMatches {receipts : List Receipt} {r : Receipt} (hr : r ∈ receipts) {log : Log}
    (hlog : log ∈ r.logs) {addresses : List Address} {topics : List (List Hash)}
    (hm : logMatches none none addresses topics log = true) :
    bloomFilter keccak (createBloom keccak receipts) addresses topics = true := by
  obtain ⟨haddr, htopics⟩ := test_createBloom keccak hr hlog
  simp only [logMatches, Option.any_none, Bool.not_false, Bool.true_and, Bool.and_eq_true, decide_eq_true_eq] at hm
  obtain ⟨⟨hincl, hlen⟩, hzip⟩ := hm
  rw [bloomFilter, Bool.and_eq_true]
  refine ⟨?_, all_topics_of_zip topics log.topics hlen hzip htopics⟩
  rcases Bool.or_eq_true_iff.1 hincl with hnil | hin
  · rw [hnil, Bool.true_or]
  · -- the log's address is one of the addresses
    obtain ⟨a, ha, hax⟩ := List.any_eq_true.1 hin
    rw [beq_iff_eq] at hax
    rw [List.any_eq_true.2 ⟨a, ha, hax ▸ haddr⟩, Bool.or_true]

/-- Where the bloom of a block's receipts fails `bloomFilter`, none of their logs matches. -/
theorem filterLogs_eq_nil_of_bloomFilter {receipts : List Receipt} {addresses : List Address}
    {topics : List (List Hash)} (h : bloomFilter keccak (createBloom keccak receipts) addresses topics = false) :
    filterLogs (receipts.flatMap (·.logs)) none none addresses topics = [] := by
  apply List.filter_eq_nil_iff.2
  intro log hlog hm
  obtain ⟨r, hr, hlog⟩ := List.mem_flatMap.1 hlog
  rw [bloomFilter_of_logMatches keccak hr hlog hm] at h
  exact Bool.noConfusion h

end Keccak

/-- `checkMatches` on a block whose `GetLogs` are the logs of its receipts: the matching logs, from
either source. -/
theorem checkMatches_eq {addresses : List Address} {topics : List (List Hash)} {logsList : List (List Log)}
    {receipts : List Receipt} (hlogs : logsList.flatten = receipts.flatMap (·.logs)) :
    checkMatches addresses topics logsList receipts = filterLogs (receipts.flatMap (·.logs)) none none addresses topics := by
  unfold checkMatches
  dsimp only
  rw [hlogs]
  cases hhead : (filterLogs (receipts.flatMap (·.logs)) none none addresses topics).head? with
  | none => rw [List.head?_eq_none_iff.1 hhead]
  | some first =>
    dsimp only
    split_ifs <;> rfl

section Keccak

variable (keccak : List UInt8 → List UInt8)

/-- The bloom test of `blockLogs` loses nothing: on a block whose header's bloom is `CreateBloom` of
its receipts and whose `GetLogs` are their logs, `blockLogs` returns exactly the matching logs of the
receipts. -/
theorem blockLogs_eq_filterLogs {bloom : Bloom} {addresses : List Address} {topics : List (List Hash)}
    {logsList : List (List Log)} {receipts : List Receipt} (hbloom : bloom = createBloom keccak receipts)
    (hlogs : logsList.flatten = receipts.flatMap (·.logs)) :
    blockLogs keccak bloom addresses topics logsList receipts =
      filterLogs (receipts.flatMap (·.logs)) none none addresses topics := by
  unfold blockLogs
  split_ifs with h
  · exact checkMatches_eq hlogs
  · rw [filterLogs_eq_nil_of_bloomFilter keccak (by rw [← hbloom]; exact Bool.eq_false_iff.2 h)]

end Keccak

/-! ### A range search -/

/-- The chain's blocks up to the head are consistent: each header's bloom is `CreateBloom` of the
block's receipts, and `GetLogs` returns their logs. -/
def Chain.Consistent (keccak : List UInt8 → List UInt8) (c : Chain) : Prop :=
  ∀ n ≤ c.head, c.bloomOf n = createBloom keccak (c.receiptsOf n) ∧
    (c.logsOf n).flatten = (c.receiptsOf n).flatMap (·.logs)

/-- A filter bound of `-1` or more as a block number, `-1` standing for the latest block. -/
def Chain.number (c : Chain) (b : Int) : Nat := if b = -1 then c.head else b.toNat

/-- The logs of block `n`'s receipts that match the criteria. -/
def Chain.matchingLogs (c : Chain) (addresses : List Address) (topics : List (List Hash)) (n : Nat) : List Log :=
  filterLogs ((c.receiptsOf n).flatMap (·.logs)) none none addresses topics

/-- The items a filter drops contribute nothing, and the others contribute the same. -/
private theorem flatMap_filter_eq {α β : Type} {p : α → Bool} {f g : α → List β} :
    ∀ (l : List α), (∀ x ∈ l, p x = false → g x = []) → (∀ x ∈ l, p x = true → f x = g x) →
      (l.filter p).flatMap f = l.flatMap g
  | [], _, _ => rfl
  | x :: l, hout, hin => by
    have ih := flatMap_filter_eq l (fun y hy => hout y (List.mem_cons_of_mem x hy))
      (fun y hy => hin y (List.mem_cons_of_mem x hy))
    rw [List.filter_cons, List.flatMap_cons]
    by_cases hx : p x = true
    · rw [if_pos hx, List.flatMap_cons, ih, hin x List.mem_cons_self hx]
    · rw [if_neg hx, ih, hout x List.mem_cons_self (Bool.eq_false_iff.2 hx), List.nil_append]

/-- Two adjacent intervals, searched one after the other. -/
private theorem flatMap_range'_split {β : Type} (F : Nat → List β) {b k n : Nat} (hb : b ≤ k) (hk : k ≤ n) :
    (List.range' b (k - b)).flatMap F ++ (List.range' k (n - k)).flatMap F = (List.range' b (n - b)).flatMap F := by
  obtain ⟨m, rfl⟩ : ∃ m, k = b + m := ⟨k - b, by omega⟩
  rw [Nat.add_sub_cancel_left, ← List.flatMap_append, List.range'_append_1, show m + (n - (b + m)) = n - b by omega]

section Chain

variable (keccak : List UInt8 → List UInt8) {c : Chain} {addresses : List Address} {topics : List (List Hash)}

theorem lt_of_mem_rangeFilters (size : Nat) :
    ∀ f ∈ (newMatcher keccak size (rangeFilters addresses topics)).filters, ∀ bits ∈ f, ∀ b ∈ bits.toList, b < 2048 := by
  intro f hf bits hbits b hb
  rw [rangeFilters_eq, newMatcher_filters_some, List.mem_map] at hf
  obtain ⟨keys, -, rfl⟩ := hf
  obtain ⟨d, -, rfl⟩ := List.mem_map.1 hbits
  exact lt_of_mem_calcBloomIndexes keccak d hb

theorem headerByNumber_natCast (c : Chain) (n : Nat) :
    c.headerByNumber n = if n ≤ c.head then some n else none := by
  unfold Chain.headerByNumber
  rw [if_neg (by omega), if_neg (by omega)]
  simp only [Int.natCast_nonneg, Int.toNat_natCast, true_and]

/-- From a number that is not negative, the loop returns the matching logs of each block up to the
head. -/
theorem unindexedLoop_eq (hc : c.Consistent keccak) (f : Filter) : ∀ (k b : Nat),
    unindexedLoop keccak f c k b = (List.range' b (min k (c.head + 1 - b))).flatMap (c.matchingLogs f.addresses f.topics)
  | 0, b => by rw [unindexedLoop, Nat.zero_min, List.range'_zero, List.flatMap_nil]
  | k + 1, b => by
    rw [unindexedLoop, headerByNumber_natCast]
    by_cases hb : b ≤ c.head
    · -- block `b` has a header: its logs, then the loop from `b + 1`
      have ih := unindexedLoop_eq hc f k (b + 1)
      rw [Nat.cast_add, Nat.cast_one] at ih
      rw [if_pos hb]
      dsimp only
      rw [ih, show min (k + 1) (c.head + 1 - b) = min k (c.head + 1 - (b + 1)) + 1 by omega,
        List.range'_succ, List.flatMap_cons, blockLogs_eq_filterLogs keccak (hc b hb).1 (hc b hb).2]
      rfl
    · -- past the head the loop stops
      rw [if_neg hb, show min (k + 1) (c.head + 1 - b) = 0 by omega, List.range'_zero, List.flatMap_nil]

/-- Block by block, the search returns the matching logs of each block up to the head. -/
theorem unindexedLogs_eq (hc : c.Consistent keccak) (f : Filter) (b e : Nat) :
    unindexedLogs keccak f c b e = (List.range' b (min e c.head + 1 - b)).flatMap (c.matchingLogs f.addresses f.topics) := by
  unfold unindexedLogs
  rw [show ((e : Int) + 1 - b).toNat = e + 1 - b by omega, unindexedLoop_eq keccak hc f,
    show min (e + 1 - b) (c.head + 1 - b) = min e c.head + 1 - b by omega]

/-- Through a correct index, the search returns the matching logs of each block up to `end`, and
goes on after it. -/
theorem indexedLogs_eq (hc : c.Consistent keccak) (hz : 0 < c.sectionSize) (h8 : c.sectionSize % 8 = 0)
    (hrot : Rotated c.sectionSize c.sections c.bloomOf c.fetch) {b e : Nat} (hend : e < c.sections * c.sectionSize)
    (hhead : e ≤ c.head) (begin end_ : Int) :
    indexedLogs (newRangeFilter keccak c.sectionSize begin end_ addresses topics) c b e =
      some ((List.range' b (e + 1 - b)).flatMap (c.matchingLogs addresses topics), e + 1) := by
  have hsec : e / c.sectionSize < c.sections := by
    rw [Nat.div_lt_iff_lt_mul hz]
    exact hend
  unfold indexedLogs
  rw [show (newRangeFilter keccak c.sectionSize begin end_ addresses topics).matcher =
      newMatcher keccak c.sectionSize (rangeFilters addresses topics) from rfl,
    start_eq_filter hz h8 (lt_of_mem_rangeFilters keccak c.sectionSize) hrot b e hsec, Option.map_some]
  -- every block the matcher sends is at most `end`, so its header is there
  have hfind : ((List.range' b (e + 1 - b)).filter fun i =>
      (newMatcher keccak c.sectionSize (rangeFilters addresses topics)).accepts (c.bloomOf i)).find? (c.head < ·) = none := by
    apply List.find?_eq_none.2
    intro n hn
    have hn' := (List.mem_range'_1.1 (List.mem_filter.1 hn).1)
    simp only [decide_eq_true_eq]
    omega
  simp only [hfind]
  congr 2
  apply flatMap_filter_eq
  · intro n hn hrej
    rw [List.mem_range'_1] at hn
    rw [accepts_rangeFilters, (hc n (by omega)).1] at hrej
    exact filterLogs_eq_nil_of_bloomFilter keccak hrej
  · intro n hn _
    rw [List.mem_range'_1] at hn
    exact checkMatches_eq (hc n (by omega)).2

/-- A range search over a consistent chain whose bloom index is correct returns exactly the logs of
the receipts of the blocks from `begin` to `end`, the latest block standing for `-1` and the range
stopping at the head, that match the addresses and topics, in block order: the indexed sections, read
through the matcher, and the other blocks, read one by one, give the same logs. -/
theorem logs_eq_filterLogs (hc : c.Consistent keccak) (hz : 0 < c.sectionSize) (h8 : c.sectionSize % 8 = 0)
    (hrot : Rotated c.sectionSize c.sections c.bloomOf c.fetch) (hidx : c.sections * c.sectionSize ≤ c.head + 1)
    (hhead : c.head < 2 ^ 63) {begin end_ : Int} (hb : -1 ≤ begin ∧ begin < 2 ^ 63) (he : -1 ≤ end_ ∧ end_ < 2 ^ 63) :
    (newRangeFilter keccak c.sectionSize begin end_ addresses topics).logs keccak c =
      some ((List.range' (c.number begin) (min (c.number end_) c.head + 1 - c.number begin)).flatMap
        (c.matchingLogs addresses topics)) := by
  -- within `int64`, the bounds are the block numbers `c.number` reads, and the conversions keep them
  have hbegin : (if begin = -1 then int64Of c.head else begin) = (c.number begin : Int) := by
    unfold Chain.number int64Of
    split_ifs <;> omega
  have hend : (if end_ = -1 then c.head else uint64Of end_) = c.number end_ := by
    unfold Chain.number uint64Of
    split_ifs <;> omega
  have hbegin_lt : c.number begin < 2 ^ 63 := by
    unfold Chain.number
    split_ifs <;> omega
  have hend_lt : c.number end_ < 2 ^ 63 := by
    unfold Chain.number
    split_ifs <;> omega
  have huint : uint64Of (c.number begin : Int) = c.number begin := by
    unfold uint64Of
    omega
  have hint : int64Of (c.number end_) = (c.number end_ : Int) := by
    unfold int64Of
    rw [if_pos hend_lt]
  unfold Filter.logs
  dsimp only
  rw [show (newRangeFilter keccak c.sectionSize begin end_ addresses topics).begin = begin from rfl,
    show (newRangeFilter keccak c.sectionSize begin end_ addresses topics).end_ = end_ from rfl, hbegin, hend, huint,
    hint]
  generalize c.number begin = b
  generalize c.number end_ = e
  split_ifs with hib hie
  · -- the whole range is indexed, and nothing is left after it
    rw [indexedLogs_eq keccak hc hz h8 hrot hie (by omega), Option.map_some, unindexedLogs_eq keccak hc]
    dsimp only [newRangeFilter]
    rw [show min e c.head = e by omega, Nat.sub_self, List.range'_zero, List.flatMap_nil, List.append_nil]
  · -- the indexed sections, then the blocks after them
    rw [indexedLogs_eq keccak hc hz h8 hrot (by omega) (by omega), Option.map_some, unindexedLogs_eq keccak hc]
    dsimp only [newRangeFilter]
    rw [flatMap_range'_split _ (by omega) (by omega)]
  · rw [unindexedLogs_eq keccak hc]
    rfl

end Chain

/-- A chain of eight blocks without logs, one section of eight indexed. -/
def quietChain : Chain := ⟨7, 8, fun _ => Bloom.empty, fun _ => [], fun _ => [], 8, 1, fun _ _ => List.replicate (8 / 8) 0⟩

theorem logs_eq_filterLogs_quiet :
    (quietChain.Consistent (fun _ => []) ∧ 0 < quietChain.sectionSize ∧ quietChain.sectionSize % 8 = 0 ∧
        Rotated quietChain.sectionSize quietChain.sections quietChain.bloomOf quietChain.fetch ∧
        quietChain.sections * quietChain.sectionSize ≤ quietChain.head + 1 ∧ quietChain.head < 2 ^ 63 ∧
        ((-1 : Int) ≤ 0 ∧ (0 : Int) < 2 ^ 63) ∧ ((-1 : Int) ≤ -1 ∧ (-1 : Int) < 2 ^ 63)) ∧
      (newRangeFilter (fun _ => []) quietChain.sectionSize 0 (-1) [] []).logs (fun _ => []) quietChain =
        some ((List.range' (quietChain.number 0) (min (quietChain.number (-1)) quietChain.head + 1 - quietChain.number 0)).flatMap
          (quietChain.matchingLogs [] [])) := by
  have hc : quietChain.Consistent (fun _ => []) := fun _ _ => ⟨rfl, rfl⟩
  exact ⟨⟨hc, by decide, by decide, rotated_empty 8 1, by decide, by decide, by decide, by decide⟩,
    logs_eq_filterLogs _ hc (by decide) (by decide) (rotated_empty 8 1) (by decide) (by decide) (by decide) (by decide)⟩

end Go420coin.Filters
