import Phi.Data.Paging
import Phi.Session.Session

/-!
# Pages of entries and lists

Model of `findEntries` of `packages/agent/src/harness/session/session.ts` and of `readAssistantFrames` of
`packages/agent/src/harness/runtime/progress.ts`. Pages of `findEntries`, `scanBranch` and `readList` are read one after
the other, each behind the last row of the one before: nothing is lost or read twice.
-/

namespace Phi.Session

structure EntryQuery where
  type : Option EntryType
  customType : Option JsString
  order : Option InMemoryStorageState.Order
  limit : Option ℤ
  cursor : Option ℤ

def maxSafeInteger : ℤ := 2 ^ 53 - 1

namespace InMemoryStorageState

variable {s : InMemoryStorageState}

/-! ## What is read -/

/-- `StorageBackedSession.findEntries`. -/
def findEntries (s : InMemoryStorageState) (query : EntryQuery) : List Entry :=
  let order := query.order.getD .desc
  if ∃ cursor ∈ query.cursor, (order = .asc ∧ cursor = maxSafeInteger) ∨ (order = .desc ∧ cursor ≤ 1) then []
  else
    s.scanEntries
      { type := query.type
        customType := query.customType
        fromSeq := if order = .asc then query.cursor.map (· + 1) else none
        toSeq := if order = .asc then none else query.cursor.map (· - 1)
        order := some order
        limit := query.limit }

def pendingAssistantFrames (operationId responseEntryId : JsString) : StoreAddress :=
  ⟨JsString.ofAscii "phi.pending.assistant_frame", operationId ++ [58] ++ responseEntryId⟩

/-- The loop of `readAssistantFrames`, for at most as many pages as the fuel. -/
def readAssistantFrames.loop (s : InMemoryStorageState) (address : StoreAddress) :
    ℕ → Option ℤ → List Json → Option (Except StorageError (List Json))
  | 0, _, _ => none
  | fuel + 1, cursor, frames =>
    match s.readList address { cursor := cursor, order := some .asc, limit := some 1000 } with
    | .error e => some (.error e)
    | .ok page =>
      if page.length < 1000 then some (.ok (frames ++ page.map (·.value)))
      else
        match page.getLast? with
        | none => some (.ok frames)
        | some last => loop s address fuel (some last.seq) (frames ++ page.map (·.value))

def readAssistantFrames (s : InMemoryStorageState) (operationId responseEntryId : JsString) (fuel : ℕ) :
    Option (Except StorageError (List Json)) :=
  match validateAddress (pendingAssistantFrames operationId responseEntryId) with
  | .error e => some (.error e)
  | .ok () => readAssistantFrames.loop s (pendingAssistantFrames operationId responseEntryId) fuel none []

/-! ## What there is to read -/

/-- The entries that a query asks for, without its cursor and limit. -/
def matchingEntries (s : InMemoryStorageState) (query : EntryQuery) : List Entry :=
  (if query.order.getD .desc = .asc then s.entriesBySeq else s.entriesBySeq.reverse).filter fun e =>
    (query.type = none ∨ query.type = some e.type) ∧ (query.customType = none ∨ query.customType = e.customType)

/-- The entries of a line that a scan asks for, without its cursor and limit. -/
def matchingBranch (query : StorageBranchScan) (path : List Entry) : List Entry :=
  (stopped query (if query.order = .oldestFirst then path.reverse else path)).filter fun e =>
    (query.type = none ∨ query.type = some e.type) ∧ (query.customType = none ∨ query.customType = e.customType)

def elementsAt (s : InMemoryStorageState) (address : StoreAddress) : List ListElement :=
  match s.listValues.get (physicalKey address) with
  | some stored => stored.elements
  | none => []

def elementsInOrder (s : InMemoryStorageState) (address : StoreAddress) (order : Option Order) : List ListElement :=
  if order.getD .asc = .asc then s.elementsAt address else (s.elementsAt address).reverse

/-- Whether a sequence lies behind a cursor. -/
def pastSeq (ascending : Bool) (cursor : ℤ) (seq : ℕ) : Bool := if ascending then cursor < seq else (seq : ℤ) < cursor

theorem pastSeq_asymm {ascending : Bool} {a b : ℕ} (h : pastSeq ascending a b = true) : pastSeq ascending b a = false := by
  cases ascending <;> simp_all [pastSeq] <;> omega

theorem pairwise_pastSeq {α : Type} {rows : List α} {seq : α → ℕ} (h : (rows.map seq).Pairwise (· < ·)) :
    rows.Pairwise (fun x y => pastSeq true (seq x) (seq y) = true)
      ∧ rows.reverse.Pairwise fun x y => pastSeq false (seq x) (seq y) = true := by
  rw [List.pairwise_map] at h
  refine ⟨h.imp fun hlt => by simpa [pastSeq] using hlt, List.pairwise_reverse.mpr (h.imp fun hlt => ?_)⟩
  simpa [pastSeq] using hlt

/-! ## Entries -/

/-- The loop of `scanEntries` finds the first rows that match. -/
theorem scanEntries_loop (query : EntryScan) (n : ℕ) (found rest : List Entry) (hfound : found.length ≤ n) :
    scanEntries.loop query (some n) found rest
      = found ++ (rest.filter (matchesEntryScan query)).take (n - found.length) := by
  induction rest generalizing found with
  | nil => simp [scanEntries.loop]
  | cons e rest ih =>
    rw [scanEntries.loop]
    split_ifs with hfull hmatches
    · have hle : n ≤ found.length := by simpa using hfull
      simp [Nat.sub_eq_zero_of_le hle]
    · have hlt : found.length < n := by simpa using hfull
      rw [ih _ (by simpa using hlt), List.filter_cons_of_pos hmatches, List.length_append, List.length_singleton,
        show n - found.length = n - (found.length + 1) + 1 by omega, List.take_succ_cons, List.append_assoc,
        List.singleton_append]
    · rw [ih _ hfound, List.filter_cons_of_neg hmatches]

theorem scanEntries_eq (s : InMemoryStorageState) (query : EntryScan) {n : ℤ} (hlimit : query.limit = some n) (hn : 0 ≤ n) :
    s.scanEntries query
      = ((if query.order = some .desc then s.entriesBySeq.reverse else s.entriesBySeq).filter
          (matchesEntryScan query)).take n.toNat := by
  rw [scanEntries, hlimit, Option.map_some, max_eq_right hn, scanEntries_loop _ _ _ _ (Nat.zero_le _), List.nil_append,
    List.length_nil, Nat.sub_zero]

theorem mem_matchingEntries {query : EntryQuery} {e : Entry} (he : e ∈ s.matchingEntries query) : e ∈ s.entriesBySeq := by
  have he' := List.mem_of_mem_filter he
  split_ifs at he'
  · exact he'
  · exact List.mem_reverse.mp he'

/-- A page of `findEntries` is the first of the entries behind its cursor. -/
theorem findEntries_eq (hseqs : ∀ e ∈ s.entriesBySeq, 1 ≤ e.seq ∧ (e.seq : ℤ) ≤ maxSafeInteger) (query : EntryQuery)
    {limit : ℤ} (hlimit : 1 ≤ limit) (cursor : Option ℤ) :
    s.findEntries { query with cursor := cursor, limit := some limit }
      = (behind (fun c e => pastSeq (query.order.getD .desc = .asc) c e.seq) (s.matchingEntries query) cursor).take
          limit.toNat := by
  have hrows (order : Order) : (if some order = some .desc then s.entriesBySeq.reverse else s.entriesBySeq)
      = if order = .asc then s.entriesBySeq else s.entriesBySeq.reverse := by
    cases order <;> rfl
  rw [findEntries]
  cases cursor with
  | none =>
    rw [if_neg (by simp), scanEntries_eq s _ rfl (by omega), hrows, behind, matchingEntries]
    congr 2
    funext e
    simp [matchesEntryScan]
  | some c =>
    by_cases hguard : (query.order.getD .desc = .asc ∧ c = maxSafeInteger) ∨ (query.order.getD .desc = .desc ∧ c ≤ 1)
    · rw [if_pos ⟨c, rfl, hguard⟩, behind, List.filter_eq_nil_iff.mpr, List.take_nil]
      intro e he
      obtain ⟨hlow, hhigh⟩ := hseqs e (mem_matchingEntries he)
      rcases hguard with ⟨horder, rfl⟩ | ⟨horder, hc⟩
      · simpa [pastSeq, horder] using hhigh
      · simp only [pastSeq, horder]
        simp
        omega
    · rw [if_neg (by simpa using hguard), scanEntries_eq s _ rfl (by omega), hrows, behind, matchingEntries,
        List.filter_filter]
      congr 2
      funext e
      cases horder : query.order.getD .desc with
      | asc =>
        simp only [matchesEntryScan, pastSeq, Option.map_some]
        by_cases hc : c < (e.seq : ℤ) <;> simp [hc]
      | desc =>
        simp only [matchesEntryScan, pastSeq, Option.map_some]
        by_cases hc : (e.seq : ℤ) < c <;> simp [hc]

theorem findEntries_pages (h : s.Invariant) (hseqs : ∀ e ∈ s.entriesBySeq, 1 ≤ e.seq ∧ (e.seq : ℤ) ≤ maxSafeInteger)
    (query : EntryQuery) {limit : ℤ} (hlimit : 1 ≤ limit) {fuel : ℕ} (hfuel : (s.matchingEntries query).length < fuel) :
    fetchAll (ε := StorageError)
        (fun cursor => some (.ok (s.findEntries { query with cursor := cursor, limit := some limit }))) (·.seq) limit.toNat
        fuel none = some (.ok (s.matchingEntries query)) := by
  have hpositive : 1 ≤ limit.toNat := by omega
  refine Paging.fetchAll_eq (fun c e => pastSeq (query.order.getD .desc = .asc) c e.seq) hpositive ?_ (fun x y => pastSeq_asymm)
    (fun cursor _ => congrArg _ (congrArg _ (findEntries_eq hseqs query hlimit cursor))) hfuel
  obtain ⟨hasc, hdesc⟩ := pairwise_pastSeq h.entry_seqs
  refine List.Pairwise.filter _ ?_
  cases query.order.getD .desc with
  | asc => simpa using hasc
  | desc => simpa using hdesc

/-! ## Branches -/

theorem stopped_sublist (query : StorageBranchScan) (path : List Entry) : (stopped query path).Sublist path := by
  induction path with
  | nil => exact List.Sublist.refl _
  | cons e path ih =>
    rw [stopped]
    split_ifs
    · exact List.Sublist.cons_cons e (List.nil_sublist path)
    · exact ih.cons_cons e

/-- Where a scan stops does not depend on its cursor, nor on its limit. -/
theorem stopped_page (query : StorageBranchScan) (cursor limit : Option ℤ) (path : List Entry) :
    stopped { query with cursor := cursor, limit := limit } path = stopped query path := by
  induction path with
  | nil => rfl
  | cons e path ih =>
    rw [stopped, stopped, ih]
    rfl

theorem selectBranch_eq (query : StorageBranchScan) (path : List Entry) {limit : ℤ} (hlimit : 1 ≤ limit) (cursor : Option ℤ) :
    selectBranch { query with cursor := cursor, limit := some limit } path
      = (behind (fun c e => pastSeq (query.order = .oldestFirst) c e.seq) (matchingBranch query path) cursor).take
          limit.toNat := by
  rw [selectBranch, applyLimit, stopped_page, max_eq_right (by omega)]
  cases cursor with
  | none =>
    rw [behind, matchingBranch]
    congr 2
    funext e
    simp [matchesScan, pastCursor]
  | some c =>
    rw [behind, matchingBranch, List.filter_filter]
    congr 2
    funext e
    cases horder : query.order with
    | newestFirst => simp [matchesScan, pastCursor, pastSeq, and_comm, and_assoc]
    | oldestFirst => simp [matchesScan, pastCursor, pastSeq, and_comm, and_assoc]

theorem ancestry_seqs (h : s.Invariant) {e : Entry} (he : e ∈ s.entriesBySeq) {path : List Entry} (hpath : s.Ancestry e path) :
    (path.reverse.map (·.seq)).Pairwise (· < ·) := by
  rw [List.pairwise_map, List.pairwise_reverse]
  refine Lineage.pairwise_rank (·.seq) (· ∈ s.entriesBySeq) (fun x y k hx hk hy => ?_) hpath he
  obtain ⟨q, hq, hlt⟩ := h.parents x hx k hk
  rw [hy] at hq
  cases hq
  exact ⟨h.mem_of_get hy, hlt⟩

theorem scanBranch_pages (h : s.Invariant) (query : StorageBranchScan) {e : Entry} (he : s.entries.get query.start = some e) :
    ∃ path, s.Ancestry e path ∧ ∀ (limit : ℤ) (walk fuel : ℕ), 1 ≤ limit → path.length ≤ walk →
      (matchingBranch query path).length < fuel →
        fetchAll (fun cursor => s.scanBranch { query with cursor := cursor, limit := some limit } walk) (·.seq) limit.toNat
          fuel none = some (.ok (matchingBranch query path)) := by
  obtain ⟨path, hpath, hscan⟩ := h.scanBranch_eq query he
  refine ⟨path, hpath, fun limit walk fuel hlimit hwalk hfuel => ?_⟩
  have hpositive : 1 ≤ limit.toNat := by omega
  refine Paging.fetchAll_eq (fun c e => pastSeq (query.order = .oldestFirst) c e.seq) hpositive ?_
    (fun x y => pastSeq_asymm) (fun cursor _ => ?_) hfuel
  · have hseqs := ancestry_seqs h (h.mem_of_get he) hpath
    obtain ⟨hasc, hdesc⟩ := pairwise_pastSeq hseqs
    rw [List.reverse_reverse] at hdesc
    refine List.Pairwise.filter _ (List.Pairwise.sublist (stopped_sublist query _) ?_)
    cases query.order with
    | newestFirst => simpa using hdesc
    | oldestFirst => simpa using hasc
  · have hpage : s.scanBranch { query with cursor := cursor, limit := some limit } walk
        = some (.ok (selectBranch { query with cursor := cursor, limit := some limit } path)) := by
      simp only [scanBranch, he, walkParents_of_ancestry hpath hwalk]
      rfl
    rw [hpage, selectBranch_eq query path hlimit]

/-! ## Lists -/

theorem elementsAt_seqs (h : s.Invariant) (address : StoreAddress) :
    ((s.elementsAt address).map (·.seq)).Pairwise (· < ·) := by
  rw [elementsAt]
  split
  next stored hstored => exact (h.elements _ (Table.mem_of_get hstored)).1
  · exact List.Pairwise.nil

theorem readList_eq (s : InMemoryStorageState) (address : StoreAddress) (order : Option Order) {limit : ℤ} (hlimit : 1 ≤ limit)
    (hsafe : limit ≤ maxSafeInteger) (cursor : Option ℤ) :
    s.readList address { cursor := cursor, order := order, limit := some limit }
      = .ok ((behind (fun c x => pastSeq (order.getD .asc = .asc) c x.seq) (s.elementsInOrder address order) cursor).take
          (min limit 10000).toNat) := by
  have hresolved : resolveListLimit { cursor := cursor, order := order, limit := some limit }
      = .ok (min limit 10000).toNat := by
    rw [resolveListLimit, if_neg]
    · rfl
    · rw [maxSafeInteger] at hsafe
      simp
      omega
  rw [readList, hresolved]
  show Except.ok _ = _
  congr 2
  rw [elementsInOrder]
  change (if order.getD .asc = .asc then List.filter _ (s.elementsAt address) else (List.filter _ (s.elementsAt address)).reverse) = _
  cases cursor with
  | none =>
    rw [behind, List.filter_true]
  | some c =>
    cases horder : order.getD .asc with
    | asc => simp [behind, pastSeq]
    | desc => simp [behind, pastSeq, List.filter_reverse]

theorem elementsInOrder_sorted (h : s.Invariant) (address : StoreAddress) (order : Option Order) :
    (s.elementsInOrder address order).Pairwise fun x y => pastSeq (order.getD .asc = .asc) x.seq y.seq = true := by
  obtain ⟨hasc, hdesc⟩ := pairwise_pastSeq (elementsAt_seqs h address)
  rw [elementsInOrder]
  cases order.getD .asc with
  | asc => simpa using hasc
  | desc => simpa using hdesc

theorem readList_pages (h : s.Invariant) (address : StoreAddress) (order : Option Order) {limit : ℤ} (hlimit : 1 ≤ limit)
    (hsafe : limit ≤ maxSafeInteger) {fuel : ℕ} (hfuel : (s.elementsInOrder address order).length < fuel) :
    fetchAll (fun cursor => some (s.readList address { cursor := cursor, order := order, limit := some limit })) (·.seq)
        (min limit 10000).toNat fuel none = some (.ok (s.elementsInOrder address order)) := by
  have hpositive : 1 ≤ (min limit 10000).toNat := by omega
  exact Paging.fetchAll_eq (fun c x => pastSeq (order.getD .asc = .asc) c x.seq) hpositive
    (elementsInOrder_sorted h address order) (fun x y => pastSeq_asymm)
    (fun cursor _ => congrArg _ (readList_eq s address order hlimit hsafe cursor)) hfuel

/-! ## Frames -/

/-- The loop of `readAssistantFrames` reads pages of a thousand. -/
theorem readAssistantFrames_loop (s : InMemoryStorageState) (address : StoreAddress) (fuel : ℕ) (cursor : Option ℤ)
    (frames : List Json) :
    readAssistantFrames.loop s address fuel cursor frames
      = (fetchAll (fun cursor => some (s.readList address { cursor := cursor, order := some .asc, limit := some 1000 }))
          (·.seq) 1000 fuel cursor).map (Except.map fun page => frames ++ page.map (·.value)) := by
  induction fuel generalizing cursor frames with
  | zero => rfl
  | succ fuel ih =>
    rw [readAssistantFrames.loop, fetchAll]
    cases s.readList address { cursor := cursor, order := some .asc, limit := some 1000 } with
    | error e => rfl
    | ok page =>
      by_cases hshort : page.length < 1000
      · simp only [if_pos hshort]
        rfl
      · simp only [if_neg hshort]
        cases hlast : page.getLast? with
        | none =>
          rw [List.getLast?_eq_none_iff.mp hlast] at hshort
          simp at hshort
        | some last =>
          simp only [ih, Option.map_map]
          congr 1
          funext result
          cases result with
          | error e => rfl
          | ok rest => simp [Except.map]

theorem readAssistantFrames_eq (h : s.Invariant) {operationId responseEntryId : JsString}
    (hvalid : (pendingAssistantFrames operationId responseEntryId).Valid) {fuel : ℕ}
    (hfuel : (s.elementsAt (pendingAssistantFrames operationId responseEntryId)).length < fuel) :
    s.readAssistantFrames operationId responseEntryId fuel
      = some (.ok ((s.elementsAt (pendingAssistantFrames operationId responseEntryId)).map (·.value))) := by
  have hpages := readList_pages h (pendingAssistantFrames operationId responseEntryId) (some .asc)
    (show (1 : ℤ) ≤ 1000 by decide) (by decide) hfuel
  rw [readAssistantFrames, show validateAddress _ = _ from hvalid]
  simp only
  rw [readAssistantFrames_loop]
  have hlimit : (min 1000 10000 : ℤ).toNat = 1000 := by decide
  rw [hlimit] at hpages
  rw [hpages]
  rfl

/-- Pages behind the last row of the page before enumerate all that there is to read, once and in order: the entries of a
query, those of a branch, the elements of a list, and so the frames of a response. -/
theorem pagination_exact (s : InMemoryStorageState) (h : s.Invariant)
    (hseqs : ∀ e ∈ s.entriesBySeq, 1 ≤ e.seq ∧ (e.seq : ℤ) ≤ maxSafeInteger) :
    (∀ (query : EntryQuery) (limit : ℤ) (fuel : ℕ), 1 ≤ limit → (s.matchingEntries query).length < fuel →
      fetchAll (ε := StorageError)
        (fun cursor => some (.ok (s.findEntries { query with cursor := cursor, limit := some limit }))) (·.seq) limit.toNat
        fuel none = some (.ok (s.matchingEntries query))) ∧
    (∀ (query : StorageBranchScan) (e : Entry), s.entries.get query.start = some e → ∃ path, s.Ancestry e path ∧
      ∀ (limit : ℤ) (walk fuel : ℕ), 1 ≤ limit → path.length ≤ walk → (matchingBranch query path).length < fuel →
        fetchAll (fun cursor => s.scanBranch { query with cursor := cursor, limit := some limit } walk) (·.seq) limit.toNat
          fuel none = some (.ok (matchingBranch query path))) ∧
    (∀ (address : StoreAddress) (order : Option Order) (limit : ℤ) (fuel : ℕ), 1 ≤ limit → limit ≤ maxSafeInteger →
      (s.elementsInOrder address order).length < fuel →
        fetchAll (fun cursor => some (s.readList address { cursor := cursor, order := order, limit := some limit })) (·.seq)
          (min limit 10000).toNat fuel none = some (.ok (s.elementsInOrder address order))) ∧
    ∀ (operationId responseEntryId : JsString) (fuel : ℕ), (pendingAssistantFrames operationId responseEntryId).Valid →
      (s.elementsAt (pendingAssistantFrames operationId responseEntryId)).length < fuel →
        s.readAssistantFrames operationId responseEntryId fuel
          = some (.ok ((s.elementsAt (pendingAssistantFrames operationId responseEntryId)).map (·.value))) := by
  refine ⟨fun query limit fuel hlimit hfuel => ?_, fun query e he => ?_, fun address order limit fuel hlimit hsafe hfuel => ?_,
    fun operationId responseEntryId fuel hvalid hfuel => ?_⟩
  · exact findEntries_pages h hseqs query hlimit hfuel
  · exact scanBranch_pages h query he
  · exact readList_pages h address order hlimit hsafe hfuel
  · exact readAssistantFrames_eq h hvalid hfuel

/-- A message, and one behind it. -/
def twoMessages : InMemoryStorageState :=
  runCommits empty
    [.new [.entry ⟨[97], none, .message, none, []⟩, .entry ⟨[98], some [97], .message, none, []⟩] 0]

theorem pagination_exact_twoMessages :
    fetchAll (ε := StorageError)
        (fun cursor => some (.ok (twoMessages.findEntries ⟨some .message, none, none, some 1, cursor⟩))) (·.seq) 1 3 none
      = some (.ok twoMessages.entriesBySeq.reverse) := by
  have hinv : twoMessages.Invariant := invariant_runCommits _
  have hseqs : ∀ e ∈ twoMessages.entriesBySeq, 1 ≤ e.seq ∧ (e.seq : ℤ) ≤ maxSafeInteger := by decide
  have hlength : (twoMessages.matchingEntries ⟨some .message, none, none, none, none⟩).length < 3 := by decide
  exact (pagination_exact twoMessages hinv hseqs).1 ⟨some .message, none, none, none, none⟩ 1 3 le_rfl hlength

end InMemoryStorageState

end Phi.Session
