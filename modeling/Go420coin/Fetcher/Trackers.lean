import Go420coin.Fetcher.TxFetcher

/-!
# What the fetcher's handlers do to its trackers

The announcement cap: `notify` truncates an announcement that would take a peer over
`maxTxAnnounces` to `want - maxTxAnnounces` hashes, where `want` counts what the peer already holds
and what it announces.  That is the number of hashes over the cap, not the room left under it, so a
peer close to the cap that announces many new hashes ends with nearly twice the cap
(`notify_overfills`).

A dropped peer: `drop` clears the peer's waiting and queued announcements and its own request, but
never the `alternates` of hashes fetched from other peers.  A peer that was an alternate origin
of such a hash stays one after it is gone, while its queue no longer lists the hash
(`drop_leaves_alternate`).
-/

namespace Go420coin.Fetcher

open SetMap

variable {now : Nat} {visits : Visits}

/-! ### Announcements -/

/-- None of the three trackers the announcement loop consults holds `hash`. -/
def Untracked (f : TxFetcher) (hash : Hash) : Prop :=
  f.waitlist hash = none ∧ f.announced hash = none ∧ f.alternates hash = none

/-- A hash no stage tracks starts a wait list of its own. -/
theorem notifyHash_of_untracked {f : TxFetcher} {origin : Peer} {hash : Hash} (h : Untracked f hash) :
    notifyHash now origin f hash = { f with
      waitlist := Function.update f.waitlist hash (some {origin})
      waittime := Function.update f.waittime hash (some now)
      waitslots := add f.waitslots origin hash } := by
  obtain ⟨hw, ha, hf⟩ := h
  simp [notifyHash, hw, ha, hf]

theorem untracked_notifyHash {f : TxFetcher} {origin : Peer} {hash hash' : Hash} (hne : hash' ≠ hash)
    (h : Untracked f hash) (h' : Untracked f hash') : Untracked (notifyHash now origin f hash) hash' := by
  obtain ⟨hw, ha, hf⟩ := h'
  rw [notifyHash_of_untracked h]
  exact ⟨by simp [Function.update_of_ne hne, hw], ha, hf⟩

/-- The announcement loop over new hashes, by induction on them: each joins the peer's waiting
slots, and the queue is left alone. -/
theorem foldl_notifyHash_of_untracked (origin : Peer) :
    ∀ {hashes : List Hash} {f : TxFetcher}, hashes.Nodup → (∀ h ∈ hashes, Untracked f h) →
      (hashes.foldl (notifyHash now origin) f).announces = f.announces ∧
      get (hashes.foldl (notifyHash now origin) f).waitslots origin =
        get f.waitslots origin ∪ hashes.toFinset
  | [], f, _, _ => by simp
  | h :: hs, f, hnd, hu => by
    rw [List.nodup_cons] at hnd
    have hh : Untracked f h := hu h List.mem_cons_self
    have hu' : ∀ h' ∈ hs, Untracked (notifyHash now origin f h) h' := fun h' hh' =>
      untracked_notifyHash (fun e => hnd.1 (e ▸ hh')) hh (hu h' (List.mem_cons_of_mem _ hh'))
    obtain ⟨ih₁, ih₂⟩ := foldl_notifyHash_of_untracked origin hnd.2 hu'
    rw [List.foldl_cons, ih₁, ih₂, notifyHash_of_untracked hh]
    refine ⟨rfl, ?_⟩
    simp [Finset.insert_union, Finset.union_insert]

/-- An announcement of new hashes that takes a peer over the cap keeps `want - maxTxAnnounces` of
them, all of which the peer then holds. -/
theorem notify_overfills {f : TxFetcher} {origin : Peer} {hashes : List Hash}
    (hused : used f origin < maxTxAnnounces) (hover : maxTxAnnounces < used f origin + hashes.length)
    (hnodup : hashes.Nodup) (hnew : ∀ h ∈ hashes, Untracked f h ∧ h ∉ get f.waitslots origin) :
    ∃ f', step now visits f (.notify origin hashes) = .ok f' ∧
      used f' origin = used f origin + (used f origin + hashes.length - maxTxAnnounces) := by
  set kept := hashes.take (used f origin + hashes.length - maxTxAnnounces) with hkept
  have hsub : kept.Sublist hashes := List.take_sublist _ _
  have hlen : kept.length = used f origin + hashes.length - maxTxAnnounces := by
    simp only [hkept, List.length_take]
    omega
  obtain ⟨hann, hslots⟩ := @foldl_notifyHash_of_untracked now origin _ f (hnodup.sublist hsub)
    (fun h hh => (hnew h (hsub.subset hh)).1)
  have hdisj : Disjoint (get f.waitslots origin) kept.toFinset :=
    Finset.disjoint_right.mpr fun h hh => (hnew h (hsub.subset (List.mem_toFinset.mp hh))).2
  refine ⟨kept.foldl (notifyHash now origin) f, ?_, ?_⟩
  · have hc : ¬ used f origin ≥ maxTxAnnounces := by omega
    -- nothing joined the queue, so a new peer has nothing to be scheduled for
    have hsched : ¬ (!(f.announces origin).isSome && decide ((get f.announces origin).card > 0)) = true := by
      cases ha : f.announces origin <;> simp [SetMap.get, ha]
    simp only [step, notify, hc, hover, ↓reduceIte, ← hkept, hann, hsched, Bool.false_eq_true]
  · unfold used
    rw [hann, hslots, Finset.card_union_of_disjoint hdisj, List.toFinset_card_of_nodup (hnodup.sublist hsub),
      hlen]
    unfold used
    omega

/-- The hash numbered `n`: its big-endian bytes. -/
def numberedHash (n : Nat) : Hash := bytesToHash (BigEndian.toBytes n)

theorem numberedHash_inj {n m : Nat} (hn : n < 256 ^ 32) (hm : m < 256 ^ 32)
    (h : numberedHash n = numberedHash m) : n = m := by
  rw [← big_bytesToHash_toBytes hn, ← big_bytesToHash_toBytes hm]
  exact congrArg Hash.big h

/-- A fetcher in which peer `p` waits on 4095 announced hashes. -/
def nearlyFull : TxFetcher :=
  { TxFetcher.empty with
    waitslots := Function.update TxFetcher.empty.waitslots "p" (some ((Finset.range 4095).image numberedHash)) }

/-- 4096 hashes `p` has not announced yet. -/
def freshBatch : List Hash := (List.range 4096).map fun i => numberedHash (4095 + i)

theorem notify_overfills_nearly_full :
    used nearlyFull "p" = 4095 ∧
      ∃ f', step 0 ⟨[], [], [], fun _ => []⟩ nearlyFull (.notify "p" freshBatch) = .ok f' ∧
        used f' "p" = 8190 := by
  have hsmall : ∀ n, n < 8191 → n < 256 ^ 32 := fun n hn => lt_trans hn (by norm_num)
  have hused : used nearlyFull "p" = 4095 := by
    have hinj : Set.InjOn numberedHash (Finset.range 4095 : Set Nat) := fun a ha b hb hab =>
      numberedHash_inj (hsmall a (by simp at ha; omega)) (hsmall b (by simp at hb; omega)) hab
    have hw : get nearlyFull.waitslots "p" = (Finset.range 4095).image numberedHash := rfl
    have ha : get nearlyFull.announces "p" = ∅ := rfl
    rw [used, hw, ha, Finset.card_image_of_injOn hinj, Finset.card_range, Finset.card_empty]
  have hlen : freshBatch.length = 4096 := by simp [freshBatch]
  have hnodup : freshBatch.Nodup := List.Nodup.map_on (fun a ha b hb hab => by
    have := numberedHash_inj (hsmall _ (by simp at ha; omega)) (hsmall _ (by simp at hb; omega)) hab
    omega) List.nodup_range
  have hnew : ∀ h ∈ freshBatch, Untracked nearlyFull h ∧ h ∉ get nearlyFull.waitslots "p" := by
    intro h hh
    obtain ⟨i, hi, rfl⟩ := List.mem_map.mp hh
    refine ⟨⟨rfl, rfl, rfl⟩, ?_⟩
    simp only [nearlyFull, TxFetcher.empty, SetMap.get, Function.update_self, Option.getD_some,
      Finset.mem_image, Finset.mem_range, not_exists, not_and]
    intro j hj hji
    have := numberedHash_inj (hsmall j (by omega)) (hsmall _ (by simp at hi; omega)) hji
    omega
  obtain ⟨f', hf', hcount⟩ := @notify_overfills 0 ⟨[], [], [], fun _ => []⟩ nearlyFull "p" freshBatch
    (by rw [hused]; decide) (by rw [hused, hlen]; decide) hnodup hnew
  exact ⟨hused, f', hf', by rw [hcount, hused, hlen]; rfl⟩

/-! ### Dropped peers -/

/-- Dropping a peer with no request in flight removes its queue and touches no alternates. -/
theorem drop_keeps_alternates {f : TxFetcher} {q : Peer} (hreq : f.requests q = none) :
    ∃ f', drop now visits f q = .ok f' ∧ f'.alternates = f.alternates ∧ f'.announces q = none := by
  cases hw : f.waitslots q <;> cases ha : f.announces q <;> simp [drop, hw, ha, hreq]

/-- A dropped alternate origin stays an alternate origin, with the hash gone from its queue. -/
theorem drop_leaves_alternate {f : TxFetcher} {q : Peer} {h : Hash} (hreq : f.requests q = none)
    (hq : q ∈ get f.alternates h) :
    ∃ f', step now visits f (.drop q) = .ok f' ∧ q ∈ get f'.alternates h ∧ h ∉ get f'.announces q := by
  obtain ⟨f', hf', halt, hann⟩ := @drop_keeps_alternates now visits f q hreq
  exact ⟨f', hf', halt ▸ hq, by simp [SetMap.get, hann]⟩

/-- The hash of the drop scenario. -/
def scenarioHash : Hash := Vector.replicate 32 1

/-- The visiting order of the drop scenario: `p` before `q`. -/
def scenarioVisits : Visits := ⟨[scenarioHash], [], ["p", "q"], fun _ => [scenarioHash]⟩

/-- `p` and then `q` announce one hash; when its wait expires it is fetched from `p`, with `q` as
the alternate origin. -/
def alternateRun : List (Nat × Visits × Event) :=
  [(0, scenarioVisits, .notify "p" [scenarioHash]), (0, scenarioVisits, .notify "q" [scenarioHash]),
   (txArriveTimeout, scenarioVisits, .waitTrigger)]

theorem drop_leaves_alternate_after_fetch :
    ∃ f, run alternateRun TxFetcher.empty = .ok f ∧ f.requests "q" = none ∧
      "q" ∈ get f.alternates scenarioHash ∧
      ∃ f', step txArriveTimeout scenarioVisits f (.drop "q") = .ok f' ∧
        "q" ∈ get f'.alternates scenarioHash ∧ scenarioHash ∉ get f'.announces "q" :=
  ⟨_, rfl, by decide, by decide, drop_leaves_alternate (by decide) (by decide)⟩

end Go420coin.Fetcher
