import Phi.Data.TextFile
import Phi.Session.Jsonl.Storage

/-!
# Reopening a JSONL session

A file is whole lines and a torn tail (`openFile_unlines`), and what it opens to depends only on its lines. A
successful commit adds the line from which the transaction is read back, so the file always opens to the state in
memory (`openFile_commit`), and a cut leaves the lines of a prefix of the history.
-/

namespace Phi.Session.Jsonl

open InMemoryStorageState

variable {F : NumberFormat}

/-! ## Files and their lines -/

theorem joinLines_eq {ls : List JsString} (h : ls ≠ []) : joinLines ls = unlines 10 ls := by
  unfold joinLines
  induction ls with
  | nil => exact absurd rfl h
  | cons l ls ih =>
    cases ls with
    | nil => simp
    | cons l' ls =>
      rw [List.intercalate_cons_cons, unlines_cons, ← ih (by simp)]
      simp

theorem splitCompleteLines_unlines {ls : List JsString} {tail : JsString} (hls : ∀ l ∈ ls, (10 : UInt16) ∉ l)
    (htail : (10 : UInt16) ∉ tail) :
    splitCompleteLines (unlines 10 ls ++ tail) = (ls, decide (tail ≠ [] ∨ ls = [])) := by
  by_cases hnil : ls = []
  · subst hnil
    have hlast : tail.getLast? ≠ some 10 := fun h => htail (List.mem_of_getLast? h)
    have hdrop : tail.reverse.dropWhile (· ≠ 10) = [] := by
      refine List.dropWhile_eq_nil_iff.mpr fun u hu => ?_
      have : u ≠ 10 := fun heq => htail (heq ▸ List.mem_reverse.mp hu)
      simpa using this
    rw [unlines_nil, List.nil_append, splitCompleteLines, if_neg hlast, hdrop]
    simp
  · rw [← joinLines_eq hnil]
    unfold joinLines
    have hsplit : ([(10 : UInt16)].intercalate ls).splitOn 10 = ls := List.splitOn_intercalate 10 hls hnil
    rcases List.eq_nil_or_concat tail with rfl | ⟨init, u, rfl⟩
    · simp [splitCompleteLines, hsplit, hnil]
    · rw [List.concat_eq_append] at htail ⊢
      have hu : u ≠ 10 := fun heq => htail (by simp [heq])
      have hinit : ∀ v ∈ init, v ≠ 10 := fun v hv heq => htail (by simp [← heq, hv])
      have hlast : ([10].intercalate ls ++ [10] ++ (init ++ [u])).getLast? ≠ some 10 := by
        rw [← List.append_assoc, List.getLast?_concat]
        exact fun h => hu (Option.some.inj h)
      have hdrop : ([10].intercalate ls ++ [10] ++ (init ++ [u])).reverse.dropWhile (· ≠ 10)
          = 10 :: ([10].intercalate ls).reverse := by
        rw [List.reverse_append, List.dropWhile_append_of_pos, List.reverse_append]
        · simp
        · intro v hv
          simp only [List.reverse_append, List.reverse_cons, List.reverse_nil, List.nil_append, List.singleton_append,
            List.mem_cons, List.mem_reverse] at hv
          rcases hv with rfl | hv
          · simpa using hu
          · simpa using hinit v hv
      rw [splitCompleteLines, if_neg hlast, hdrop]
      simp [hsplit]

/-- A file of whole lines, each a piece of the bytes without a newline. -/
structure Whole (ls : List (List UInt8)) : Prop where
  ne_nil : ls ≠ []
  newline : ∀ l ∈ ls, (10 : UInt8) ∉ l

/-- What a file opens to depends on its whole lines only. -/
theorem openFile_unlines {ls : List (List UInt8)} {tail : List UInt8} (hls : ∀ l ∈ ls, (10 : UInt8) ∉ l)
    (htail : (10 : UInt8) ∉ tail) :
    openFile F (unlines 10 ls ++ tail) = (openLines F (ls.map decodeUtf8)).map fun storage =>
      (storage, if tail ≠ [] ∨ ls = [] then textEncode (joinLines (ls.map decodeUtf8)) else unlines 10 ls ++ tail) := by
  rw [openFile, decodeUtf8_unlines,
    splitCompleteLines_unlines (newline_not_mem_map hls) (newline_not_mem_decodeUtf8 htail)]
  simp only [ne_eq, decodeUtf8_eq_nil, List.map_eq_nil_iff, decide_eq_true_eq]
  cases openLines F (ls.map decodeUtf8) <;> rfl

/-- A file of whole lines opens without being rewritten. -/
theorem openFile_whole {ls : List (List UInt8)} (hls : Whole ls) :
    openFile F (unlines 10 ls) = (openLines F (ls.map decodeUtf8)).map fun storage => (storage, unlines 10 ls) := by
  have h := openFile_unlines (F := F) hls.newline (show (10 : UInt8) ∉ [] by simp)
  rw [List.append_nil] at h
  rw [h]
  simp [hls.ne_nil]

/-- The lines of a rewritten file. -/
theorem textEncode_joinLines {ls : List JsString} (hne : ls ≠ []) (hls : ∀ l ∈ ls, Text.Paired l) :
    textEncode (joinLines ls) = unlines 10 (ls.map textEncode) := by
  rw [joinLines_eq hne]
  clear hne
  induction ls with
  | nil => rfl
  | cons l ls ih =>
    rw [List.forall_mem_cons] at hls
    rw [unlines_cons, textEncode_append hls.1, List.map_cons, unlines_cons, ← ih hls.2]
    congr 1
    exact textEncode_append (s := [10]) (.unit (by decide) .nil) (unlines 10 ls)

theorem whole_textEncode {ls : List JsString} (hne : ls ≠ []) (hls : ∀ l ∈ ls, IsLine l) :
    Whole (ls.map textEncode) := by
  exact ⟨by simpa using hne, newline_not_mem_map_textEncode hls⟩

/-! ## Replay -/

theorem replayLines_append (number : ℕ) (s : InMemoryStorageState) (xs ys : List JsString) :
    replayLines F number s (xs ++ ys)
      = replayLines F number s xs >>= fun s' => replayLines F (number + xs.length) s' ys := by
  induction xs generalizing number s with
  | nil => rfl
  | cons x xs ih =>
    simp only [List.cons_append, replayLines]
    cases replayLine F s x with
    | error e => rfl
    | ok s' =>
      simp only [ih, List.length_cons]
      rw [show number + 1 + xs.length = number + (xs.length + 1) by omega]

/-- A replayed line is a sequence of steps. -/
theorem steps_replayLine {s s' : InMemoryStorageState} {line : JsString} (hr : replayLine F s line = .ok s') :
    Relation.ReflTransGen Step s s' := by
  rcases bind_eq_ok.mp hr with ⟨writes, -, hr⟩
  unfold replayCommitted applyCommitted at hr
  cases hok : s.validateCommitted writes with
  | error e =>
    rw [hok] at hr
    cases hr
  | ok u =>
    have hsteps := applyValidated_steps hok
    rw [hok] at hr
    simp only at hr
    cases happly : s.applyValidated writes with
    | mk m r =>
      rw [happly] at hr hsteps
      cases r with
      | error e => cases hr
      | ok stats =>
        cases hr
        exact hsteps

theorem steps_replayLines {number : ℕ} {s s' : InMemoryStorageState} {lines : List JsString}
    (hr : replayLines F number s lines = .ok s') : Relation.ReflTransGen Step s s' := by
  induction lines generalizing number s with
  | nil =>
    cases hr
    exact .refl
  | cons line lines ih =>
    simp only [replayLines] at hr
    cases hline : replayLine F s line with
    | error e =>
      rw [hline] at hr
      cases hr
    | ok s₁ =>
      rw [hline] at hr
      exact (steps_replayLine hline).trans (ih hr)

/-- The high-water mark changes the next sequence only, and never lowers it. -/
theorem advance_eq (header : JsonlStorageHeader) (s : InMemoryStorageState) :
    ∃ n, s.nextSeq ≤ n ∧ advance header s = { s with nextSeq := n } ∧ ∀ m ∈ header.nextSeq, m ≤ n := by
  unfold advance
  cases header.nextSeq with
  | none => exact ⟨s.nextSeq, le_rfl, rfl, by simp⟩
  | some m => exact ⟨max s.nextSeq m, le_max_left _ _, rfl, by simp⟩

theorem invariant_advance {header : JsonlStorageHeader} {s : InMemoryStorageState} (h : s.Invariant) :
    (advance header s).Invariant := by
  rcases advance_eq header s with ⟨n, hn, heq, -⟩
  rw [heq]
  refine h.of_eq rfl rfl rfl rfl hn h.values h.lists fun x hx => ?_
  exact ⟨(h.elements x hx).1, fun element hmem => ((h.elements x hx).2 element hmem).trans_le hn⟩

/-- What `open` does with lines it accepts. -/
theorem openLines_eq_ok {first : JsString} {rest : List JsString} {storage : JsonlStorage} :
    openLines F (first :: rest) = .ok storage ↔
      first ≠ [] ∧ parseJsonlSessionHeader F first = .ok storage.header ∧
        storage.header.storageVersion = jsonlStorageVersion ∧
        ∃ s, replayLines F 2 InMemoryStorageState.empty rest = .ok s ∧ storage.memory = advance storage.header s := by
  simp only [openLines, ite_error_eq_ok, bind_eq_ok, ne_eq, not_not]
  constructor
  · rintro ⟨hfirst, header, hheader, hversion, s, hs, heq⟩
    cases heq
    exact ⟨hfirst, hheader, hversion, s, hs, rfl⟩
  · rintro ⟨hfirst, hheader, hversion, s, hs, hmemory⟩
    refine ⟨hfirst, storage.header, hheader, hversion, s, hs, ?_⟩
    rw [← hmemory]
    rfl

/-- The first of the lines of a file that opens are a file that opens. -/
theorem openLines_take {lines : List JsString} {storage : JsonlStorage} (h : openLines F lines = .ok storage) {k : ℕ}
    (hk : 0 < k) : ∃ storage', openLines F (lines.take k) = .ok storage' := by
  cases lines with
  | nil => cases h
  | cons first rest =>
    rcases k with _ | k
    · omega
    · rcases openLines_eq_ok.mp h with ⟨hfirst, hheader, hversion, s, hs, -⟩
      rw [← List.take_append_drop k rest, replayLines_append, bind_eq_ok] at hs
      rcases hs with ⟨s', hs', -⟩
      refine ⟨⟨storage.header, advance storage.header s'⟩, ?_⟩
      rw [List.take_succ_cons, openLines_eq_ok]
      exact ⟨hfirst, hheader, hversion, s', hs', rfl⟩

/-- The state in memory is well formed, and sequences start at one. -/
theorem invariant_openLines {lines : List JsString} {storage : JsonlStorage} (h : openLines F lines = .ok storage) :
    storage.memory.Invariant ∧ 1 ≤ storage.memory.nextSeq := by
  cases lines with
  | nil => cases h
  | cons first rest =>
    rcases openLines_eq_ok.mp h with ⟨-, -, -, s, hs, hmemory⟩
    have hsteps := steps_replayLines hs
    have hle : 1 ≤ s.nextSeq := nextSeq_le_of_steps hsteps
    rcases advance_eq storage.header s with ⟨n, hn, heq, -⟩
    refine ⟨hmemory ▸ invariant_advance (invariant_empty.steps hsteps), ?_⟩
    rw [hmemory, heq]
    exact hle.trans hn

/-! ## Commits -/

/-- What the caller and the clock give to a commit: records of the declared types, and safe integers. -/
structure Typed (s : InMemoryStorageState) (writes : List Write) (timestamp : ℕ) : Prop where
  storable : ∀ w ∈ writes, Storable w
  timestamp_le : timestamp ≤ maxSafeInteger
  seq_le : s.nextSeq + writes.length ≤ maxSafeInteger + 1

theorem storableCommitted_commitWrite {w : Write} (h : Storable w) (seq timestamp : ℕ) :
    StorableCommitted (commitWrite w seq timestamp) := by
  cases w <;> exact h

theorem given_prepared {writes : List Write} {firstSeq timestamp : ℕ} (hw : ∀ w ∈ writes, Storable w)
    (hfirst : 1 ≤ firstSeq) (htime : timestamp ≤ maxSafeInteger) (hseq : firstSeq + writes.length ≤ maxSafeInteger + 1) :
    ∀ w ∈ prepareStorageCommit writes firstSeq timestamp, StorableCommitted w ∧ Given w := by
  induction writes generalizing firstSeq with
  | nil => exact fun w hw => absurd hw List.not_mem_nil
  | cons x xs ih =>
    rw [List.forall_mem_cons] at hw
    rw [List.length_cons] at hseq
    rw [prepareStorageCommit, List.forall_mem_cons]
    refine ⟨⟨storableCommitted_commitWrite hw.1 _ _, ?_, ?_, ?_⟩, ih hw.2 (by omega) (by omega)⟩
    · rw [seq_commitWrite]
      exact hfirst
    · rw [seq_commitWrite]
      omega
    · intro e he
      cases x <;> simp only [commitWrite, CommittedWrite.entry.injEq, reduceCtorEq] at he
      rw [← he]
      exact htime

/-- A write reads nothing of the next sequence, and sets it. -/
theorem put_withNextSeq (s : InMemoryStorageState) (n : ℕ) (w : CommittedWrite) :
    ({ s with nextSeq := n } : InMemoryStorageState).put w = s.put w := by
  cases w <;> rfl

theorem validateCommitted_of_advanced {s : InMemoryStorageState} {n : ℕ} (hn : s.nextSeq ≤ n)
    {ws : List CommittedWrite}
    (h : ({ s with nextSeq := n } : InMemoryStorageState).validateCommitted ws = .ok ()) :
    s.validateCommitted ws = .ok () := by
  cases ws with
  | nil => rfl
  | cons w ws =>
    rcases validateCommitted_cons.mp h with ⟨hw, hws⟩
    rw [put_withNextSeq] at hws
    exact validateCommitted_cons.mpr ⟨⟨hn.trans hw.seq, hw.entry_id, hw.usage_id, hw.parent⟩, hws⟩

/-- A transaction that went through on the state in memory goes through again when its line is replayed. -/
theorem replayLine_serialize {s : InMemoryStorageState} {ws : List CommittedWrite}
    (htyped : ∀ w ∈ ws, StorableCommitted w ∧ Given w) (hok : s.validateCommitted ws = .ok ())
    (haddr : ∀ w ∈ ws, w.AddressOk) :
    replayLine F s (serializeTransaction F ws) = .ok (ws.foldl InMemoryStorageState.put s) := by
  rw [replayLine, parseTransaction_serializeTransaction F htyped, ok_bind, replayCommitted, applyCommitted, hok]
  simp only [applyValidated_of_addressOk haddr]
  rfl

/-- The line of a transaction opens to the state that the transaction leaves. -/
theorem openLines_concat {lines : List JsString} {storage : JsonlStorage} (h : openLines F lines = .ok storage)
    {ws : List CommittedWrite} (hne : ws ≠ []) (htyped : ∀ w ∈ ws, StorableCommitted w ∧ Given w)
    (hok : storage.memory.validateCommitted ws = .ok ()) (haddr : ∀ w ∈ ws, w.AddressOk) :
    openLines F (lines ++ [serializeTransaction F ws])
      = .ok { storage with memory := ws.foldl InMemoryStorageState.put storage.memory } := by
  cases lines with
  | nil => cases h
  | cons first rest =>
    rcases openLines_eq_ok.mp h with ⟨hfirst, hheader, hversion, s, hs, hmemory⟩
    rcases advance_eq storage.header s with ⟨n, hn, heq, hmark⟩
    rw [hmemory, heq] at hok
    have hreplay := replayLine_serialize (F := F) htyped (validateCommitted_of_advanced hn hok) haddr
    -- the writes set the next sequence, so the high-water mark makes no difference to them
    have hput : ws.foldl InMemoryStorageState.put storage.memory = ws.foldl InMemoryStorageState.put s := by
      rw [hmemory, heq]
      cases ws with
      | nil => exact absurd rfl hne
      | cons w ws => rw [List.foldl_cons, List.foldl_cons, put_withNextSeq]
    have hnext : n ≤ (ws.foldl InMemoryStorageState.put s).nextSeq := by
      have hsteps := applyValidated_steps hok
      rw [applyValidated_of_addressOk haddr, ← heq, ← hmemory, hput] at hsteps
      rw [hmemory, heq] at hsteps
      exact nextSeq_le_of_steps hsteps
    have hadvance : advance storage.header (ws.foldl InMemoryStorageState.put s)
        = ws.foldl InMemoryStorageState.put s := by
      unfold advance
      cases hm : storage.header.nextSeq with
      | none => rfl
      | some m =>
        simp only [advanceNextSeq]
        rw [max_eq_left ((hmark m hm).trans hnext)]
    rw [List.cons_append, openLines_eq_ok]
    refine ⟨hfirst, hheader, hversion, ws.foldl InMemoryStorageState.put s, ?_, ?_⟩
    · rw [replayLines_append, hs, ok_bind]
      simp only [replayLines, hreplay]
    · rw [hadvance]
      exact hput

/-- The file holds whole lines, and they open to the storage. -/
def Backed (F : NumberFormat) (c : JsonlStorage × File) : Prop :=
  ∃ ls, Whole ls ∧ c.2 = unlines 10 ls ∧ openLines F (ls.map decodeUtf8) = .ok c.1

theorem Backed.openFile {c : JsonlStorage × File} (h : Backed F c) : openFile F c.2 = .ok c := by
  rcases h with ⟨ls, hls, hfile, hopen⟩
  rw [hfile, openFile_whole hls, hopen, ← hfile]
  rfl

/-- A storage that was opened is backed by the file that opening it left. -/
theorem backed_of_openFile {file : File} {c : JsonlStorage × File} (h : openFile F file = .ok c) :
    Backed F c ∧ ∃ ls tail, file = unlines 10 ls ++ tail ∧ (∀ l ∈ ls, (10 : UInt8) ∉ l) ∧ (10 : UInt8) ∉ tail ∧
      openLines F (ls.map decodeUtf8) = .ok c.1 ∧ decodeUtf8 c.2 = unlines 10 (ls.map decodeUtf8) := by
  rcases exists_unlines (10 : UInt8) file with ⟨ls, tail, rfl, hls, htail⟩
  rw [openFile_unlines hls htail] at h
  cases hopen : openLines F (ls.map decodeUtf8) with
  | error e =>
    rw [hopen] at h
    cases h
  | ok storage =>
    rw [hopen] at h
    have hne : ls ≠ [] := by
      rintro rfl
      cases hopen
    have hmap : ls.map decodeUtf8 ≠ [] := by simpa using hne
    have hlines : ∀ l ∈ ls.map decodeUtf8, IsLine l := by
      intro l hl
      refine ⟨newline_not_mem_map hls l hl, ?_⟩
      rcases List.mem_map.mp hl with ⟨b, -, rfl⟩
      exact paired_decodeUtf8 b
    have hjoin := textEncode_joinLines hmap fun l hl => (hlines l hl).paired
    cases h
    by_cases htorn : tail ≠ [] ∨ ls = []
    · rw [if_pos htorn]
      refine ⟨⟨(ls.map decodeUtf8).map textEncode, whole_textEncode hmap hlines, hjoin, ?_⟩, ls, tail, rfl, hls,
        htail, hopen, ?_⟩
      · rw [map_decodeUtf8_textEncode hlines]
        exact hopen
      · have h := decodeUtf8_unlines ((ls.map decodeUtf8).map textEncode) []
        rw [map_decodeUtf8_textEncode hlines, List.append_nil] at h
        rw [hjoin, h]
        exact List.append_nil _
    · rw [if_neg htorn]
      have htail : tail = [] := by
        by_contra hne
        exact htorn (Or.inl hne)
      subst htail
      refine ⟨⟨ls, ⟨hne, hls⟩, List.append_nil _, hopen⟩, ls, [], rfl, hls, by simp, hopen, ?_⟩
      rw [decodeUtf8_unlines]
      exact List.append_nil _

theorem nextSeq_foldl_put (s : InMemoryStorageState) (writes : List Write) (timestamp : ℕ) :
    ((prepareStorageCommit writes s.nextSeq timestamp).foldl InMemoryStorageState.put s).nextSeq
      = s.nextSeq + writes.length := by
  induction writes generalizing s with
  | nil => rfl
  | cons w writes ih =>
    have h := ih (s.put (commitWrite w s.nextSeq timestamp))
    rw [nextSeq_put, seq_commitWrite] at h
    rw [prepareStorageCommit, List.foldl_cons, h, List.length_cons]
    omega

theorem prepareStorageCommit_eq_nil {writes : List Write} {firstSeq timestamp : ℕ} :
    prepareStorageCommit writes firstSeq timestamp = [] ↔ writes = [] := by
  cases writes <;> simp [prepareStorageCommit]

/-- A commit succeeded. -/
def Commits (F : NumberFormat) (c : JsonlStorage × File) (commit : List Write × ℕ) (c' : JsonlStorage × File) : Prop :=
  ∃ stats, applyCommit F c.1 c.2 commit.1 commit.2 .done = (c', .ok stats)

/-- What a commit does, by what the validation of its writes says. -/
theorem applyCommit_eq (storage : JsonlStorage) (file : File) (writes : List Write) (timestamp : ℕ)
    (append : AppendOutcome) {prepared : List CommittedWrite}
    (hp : prepared = prepareStorageCommit writes storage.memory.nextSeq timestamp) :
    applyCommit F storage file writes timestamp append =
      match storage.memory.validateCommitted prepared, append with
      | .error e, _ => ((storage, file), .error (.storage e))
      | .ok _, .done =>
        (({ storage with memory := (storage.memory.applyValidated prepared).1 },
            if prepared = [] then file else file ++ lineBytes F prepared),
          (storage.memory.applyValidated prepared).2.mapError .storage)
      | .ok _, .failed written =>
        if prepared = [] then
          (({ storage with memory := (storage.memory.applyValidated prepared).1 }, file),
            (storage.memory.applyValidated prepared).2.mapError .storage)
        else ((storage, file ++ (lineBytes F prepared).take written), .error .append) := by
  subst hp
  simp only [applyCommit, prepareCommit]
  cases storage.memory.validateCommitted (prepareStorageCommit writes storage.memory.nextSeq timestamp) with
  | error e => rfl
  | ok u =>
    simp only [ok_bind, pure, Except.pure, List.length_eq_zero_iff]
    cases append with
    | done => split_ifs <;> rfl
    | failed written => rfl

/-- What a successful commit did. -/
theorem Commits.spec {c c' : JsonlStorage × File} {commit : List Write × ℕ} (h : Commits F c commit c')
    (hinv : c.1.memory.Invariant) {prepared : List CommittedWrite}
    (hp : prepared = prepareStorageCommit commit.1 c.1.memory.nextSeq commit.2) :
    c.1.memory.validateCommitted prepared = .ok () ∧ (∀ w ∈ prepared, w.AddressOk) ∧
      c'.1 = { c.1 with memory := prepared.foldl InMemoryStorageState.put c.1.memory } ∧
      c'.2 = if prepared = [] then c.2 else c.2 ++ lineBytes F prepared := by
  rcases h with ⟨stats, h⟩
  rw [applyCommit_eq _ _ _ _ _ hp] at h
  cases hok : c.1.memory.validateCommitted prepared with
  | error e =>
    rw [hok] at h
    cases h
  | ok u =>
    rw [hok] at h
    rw [Prod.mk.injEq] at h
    rcases h with ⟨rfl, hr⟩
    have haddr : ∀ w ∈ prepared, w.AddressOk := by
      by_contra hbad
      push Not at hbad
      rcases hinv.applyValidated_error hok hbad with ⟨e, he⟩
      rw [he] at hr
      cases hr
    refine ⟨rfl, haddr, ?_, rfl⟩
    rw [applyValidated_of_addressOk haddr]

/-- A successful commit advances the next sequence by the number of its writes. -/
theorem Commits.nextSeq {c c' : JsonlStorage × File} {commit : List Write × ℕ} (h : Commits F c commit c')
    (hinv : c.1.memory.Invariant) :
    c'.1.memory.Invariant ∧ c'.1.memory.nextSeq = c.1.memory.nextSeq + commit.1.length := by
  rcases h.spec hinv rfl with ⟨hok, haddr, hstorage, -⟩
  have hsteps := applyValidated_steps hok
  rw [applyValidated_of_addressOk haddr] at hsteps
  rw [hstorage]
  exact ⟨hinv.steps hsteps, nextSeq_foldl_put _ _ _⟩

/-- The line of a transaction, put behind the lines of a storage, backs the state the transaction leaves. -/
theorem Backed.line {c : JsonlStorage × File} (h : Backed F c) {ws : List CommittedWrite} (hne : ws ≠ [])
    (htyped : ∀ w ∈ ws, StorableCommitted w ∧ Given w) (hok : c.1.memory.validateCommitted ws = .ok ())
    (haddr : ∀ w ∈ ws, w.AddressOk) :
    Backed F ({ c.1 with memory := ws.foldl InMemoryStorageState.put c.1.memory },
      c.2 ++ (textEncode (serializeTransaction F ws) ++ [10])) := by
  rcases h with ⟨ls, hls, hfile, hopen⟩
  have hline : IsLine (serializeTransaction F ws) := isLine_stringify F _
  refine ⟨ls ++ [textEncode (serializeTransaction F ws)], ⟨by simp, ?_⟩, ?_, ?_⟩
  · rw [List.forall_mem_append]
    exact ⟨hls.newline, by simpa using newline_not_mem_textEncode hline.paired hline.newline⟩
  · rw [hfile, unlines_append]
    simp
  · rw [List.map_append, List.map_singleton, decodeUtf8_textEncode hline.paired,
      openLines_concat hopen hne htyped hok haddr]

theorem Backed.invariant {c : JsonlStorage × File} (h : Backed F c) :
    c.1.memory.Invariant ∧ 1 ≤ c.1.memory.nextSeq := by
  rcases h with ⟨ls, -, -, hopen⟩
  exact invariant_openLines hopen

theorem Backed.given {c : JsonlStorage × File} (h : Backed F c) {writes : List Write} {timestamp : ℕ}
    (htyped : Typed c.1.memory writes timestamp) :
    ∀ w ∈ prepareStorageCommit writes c.1.memory.nextSeq timestamp, StorableCommitted w ∧ Given w :=
  given_prepared htyped.storable h.invariant.2 htyped.timestamp_le htyped.seq_le

/-- A successful commit is backed by the file it leaves, which goes on where the one before ended. -/
theorem Backed.commit {c c' : JsonlStorage × File} {commit : List Write × ℕ} (h : Backed F c)
    (hcommit : Commits F c commit c') (htyped : Typed c.1.memory commit.1 commit.2) :
    Backed F c' ∧ (c' = c ∨ ∃ line, c'.2 = c.2 ++ (line ++ [10]) ∧ (10 : UInt8) ∉ line) := by
  rcases hcommit.spec h.invariant.1 rfl with ⟨hok, haddr, hstorage, hfile⟩
  by_cases hnil : prepareStorageCommit commit.1 c.1.memory.nextSeq commit.2 = []
  · have hsame : c' = c := by
      rw [if_pos hnil] at hfile
      rw [hnil] at hstorage
      exact Prod.ext hstorage hfile
    exact ⟨hsame ▸ h, Or.inl hsame⟩
  · have hline : IsLine (serializeTransaction F (prepareStorageCommit commit.1 c.1.memory.nextSeq commit.2)) :=
      isLine_stringify F _
    have hbacked := h.line hnil (h.given htyped) hok haddr
    rw [if_neg hnil, lineBytes, textEncode_append hline.paired] at hfile
    refine ⟨?_, Or.inr ⟨_, hfile, newline_not_mem_textEncode hline.paired hline.newline⟩⟩
    rw [show c' = (c'.1, c'.2) from rfl, hstorage, hfile]
    exact hbacked

/-! ## Cuts -/

/-- The bytes of the first line of a file and its newline. -/
def headerLength (file : File) : ℕ := (file.takeWhile (· ≠ 10)).length + 1

theorem headerLength_unlines {l : List UInt8} (hl : (10 : UInt8) ∉ l) (rest : List UInt8) :
    headerLength (l ++ 10 :: rest) = l.length + 1 := by
  have hall : ∀ b ∈ l, decide (b ≠ 10) = true := by
    intro b hb
    have : b ≠ 10 := fun heq => hl (heq ▸ hb)
    simpa using this
  rw [headerLength, List.takeWhile_append_of_pos hall]
  simp

/-- A file cut after its header opens. -/
theorem Backed.cut {c : JsonlStorage × File} (h : Backed F c) {n : ℕ} (hn : headerLength c.2 ≤ n) :
    ∃ c', Jsonl.openFile F (c.2.take n) = .ok c' := by
  rcases h with ⟨ls, hls, hfile, hopen⟩
  rcases take_unlines hls.newline n with ⟨k, tail, htake, htail, -, hnext, -, -⟩
  have hk : 0 < k := by
    rcases k with _ | k
    · cases ls with
      | nil => exact absurd rfl hls.ne_nil
      | cons l ls =>
        have hlt := hnext (by simp)
        rw [hfile, unlines_cons, headerLength_unlines (hls.newline l (List.mem_cons_self ..))] at hn
        simp at hlt
        omega
    · omega
  rcases openLines_take hopen hk with ⟨storage, hstorage⟩
  rw [← List.map_take] at hstorage
  rw [hfile, htake, openFile_unlines (fun l hl => hls.newline l (List.mem_of_mem_take hl)) htail, hstorage]
  exact ⟨_, rfl⟩

/-- A piece of a line after the file is dropped when the file is opened. -/
theorem Backed.tail {c : JsonlStorage × File} (h : Backed F c) {tail : List UInt8} (htail : (10 : UInt8) ∉ tail) :
    ∃ file, Jsonl.openFile F (c.2 ++ tail) = .ok (c.1, file) ∧ decodeUtf8 file = decodeUtf8 c.2 := by
  rcases h with ⟨ls, hls, hfile, hopen⟩
  have hfull : Jsonl.openFile F (c.2 ++ tail) = .ok (c.1, if tail ≠ [] ∨ ls = []
      then textEncode (joinLines (ls.map decodeUtf8)) else unlines 10 ls ++ tail) := by
    rw [hfile, openFile_unlines hls.newline htail, hopen]
    rfl
  refine ⟨_, hfull, ?_⟩
  rcases backed_of_openFile hfull with ⟨-, ls', tail', heq, hls', htail', -, hdecode⟩
  rw [hfile] at heq
  rcases unlines_append_inj hls.newline hls' htail htail' heq with ⟨rfl, -⟩
  have h := decodeUtf8_unlines ls []
  rw [List.append_nil] at h
  rw [hdecode, hfile, h]
  exact (List.append_nil _).symm

/-- Commits that all succeed, one after the other. -/
inductive CommitRun (F : NumberFormat) : JsonlStorage × File → List (List Write × ℕ) → JsonlStorage × File → Prop where
  | nil (c : JsonlStorage × File) : CommitRun F c [] c
  | cons {c c₁ c' : JsonlStorage × File} {commit : List Write × ℕ} {rest : List (List Write × ℕ)}
    (h : Commits F c commit c₁) (hrest : CommitRun F c₁ rest c') : CommitRun F c (commit :: rest) c'

/-- The records of all commits have their declared types. -/
def TypedCommits (commits : List (List Write × ℕ)) : Prop :=
  ∀ commit ∈ commits, (∀ w ∈ commit.1, Storable w) ∧ commit.2 ≤ maxSafeInteger

/-- Along a run sequences grow and the file is only appended to. -/
theorem CommitRun.grows {c c' : JsonlStorage × File} {commits : List (List Write × ℕ)}
    (h : CommitRun F c commits c') (hinv : c.1.memory.Invariant) :
    c.1.memory.nextSeq ≤ c'.1.memory.nextSeq ∧ c.2 <+: c'.2 := by
  induction h with
  | nil => exact ⟨le_rfl, List.prefix_refl _⟩
  | cons hcommit _ ih =>
    rcases hcommit.nextSeq hinv with ⟨hinv', hseq⟩
    rcases hcommit.spec hinv rfl with ⟨-, -, -, hfile⟩
    refine ⟨(Nat.le.intro hseq.symm).trans (ih hinv').1, List.IsPrefix.trans ?_ (ih hinv').2⟩
    rw [hfile]
    split_ifs
    · exact List.prefix_refl _
    · exact List.prefix_append _ _

/-- The first commit of a run, with what the rest of the run needs. -/
theorem Backed.first {c c₁ c' : JsonlStorage × File} {commit : List Write × ℕ} {rest : List (List Write × ℕ)}
    (h : Backed F c) (hcommit : Commits F c commit c₁) (hrest : CommitRun F c₁ rest c')
    (htyped : TypedCommits (commit :: rest)) (hseq : c'.1.memory.nextSeq ≤ maxSafeInteger + 1) :
    Backed F c₁ ∧ (c₁ = c ∨ ∃ line, c₁.2 = c.2 ++ (line ++ [10]) ∧ (10 : UInt8) ∉ line) ∧ TypedCommits rest := by
  rcases hcommit.nextSeq h.invariant.1 with ⟨hinv, hnext⟩
  have hle := (hrest.grows hinv).1
  rw [TypedCommits, List.forall_mem_cons] at htyped
  rcases h.commit hcommit ⟨htyped.1.1, htyped.1.2, by omega⟩ with ⟨hbacked, hline⟩
  exact ⟨hbacked, hline, htyped.2⟩

/-- What a run of successful commits leaves is backed by its file. -/
theorem Backed.run {c c' : JsonlStorage × File} {commits : List (List Write × ℕ)} (h : Backed F c)
    (hrun : CommitRun F c commits c') (htyped : TypedCommits commits)
    (hseq : c'.1.memory.nextSeq ≤ maxSafeInteger + 1) : Backed F c' := by
  induction hrun with
  | nil => exact h
  | cons hcommit hrest ih =>
    rcases h.first hcommit hrest htyped hseq with ⟨hbacked, -, htyped'⟩
    exact ih hbacked htyped' hseq

/-- The state that a cut leaves: what the file held after the last commit whose line is whole. -/
structure LastWhole (F : NumberFormat) (c : JsonlStorage × File) (commits : List (List Write × ℕ)) (n : ℕ)
    (c₁ : JsonlStorage × File) : Prop where
  reached : ∃ done rest, commits = done ++ rest ∧ CommitRun F c done c₁ ∧ c₁.2.length ≤ n ∧
    ∀ done' rest' c₂, commits = done' ++ rest' → CommitRun F c done' c₂ → c₂.2.length ≤ n → done'.length ≤ done.length

theorem Commits.unique {c c₁ c₂ : JsonlStorage × File} {commit : List Write × ℕ} (h₁ : Commits F c commit c₁)
    (h₂ : Commits F c commit c₂) : c₁ = c₂ := by
  rcases h₁ with ⟨s₁, h₁⟩
  rcases h₂ with ⟨s₂, h₂⟩
  rw [h₁] at h₂
  exact (Prod.mk.inj h₂).1

/-- A cut after the start of a run opens to the last state whose line is whole. -/
theorem Backed.cut_run {c c' : JsonlStorage × File} {commits : List (List Write × ℕ)} (h : Backed F c)
    (hrun : CommitRun F c commits c') (htyped : TypedCommits commits)
    (hseq : c'.1.memory.nextSeq ≤ maxSafeInteger + 1) {n : ℕ} (hlow : c.2.length ≤ n) (hhigh : n ≤ c'.2.length) :
    ∃ c₁ file, LastWhole F c commits n c₁ ∧ Jsonl.openFile F (c'.2.take n) = .ok (c₁.1, file) ∧
      decodeUtf8 file = decodeUtf8 c₁.2 := by
  induction hrun with
  | nil c =>
    refine ⟨c, c.2, ⟨[], [], rfl, .nil c, hlow, ?_⟩, ?_, rfl⟩
    · intro done' rest' c₂ heq _ _
      rw [(List.append_eq_nil_iff.mp heq.symm).1]
    · rw [List.take_of_length_le hlow]
      exact h.openFile
  | @cons c c₁ c' commit rest hcommit hrest ih =>
    rcases h.first hcommit hrest htyped hseq with ⟨hbacked, hline, htyped'⟩
    by_cases hn : c₁.2.length ≤ n
    · rcases ih hbacked htyped' hseq hn hhigh with ⟨c₂, file, ⟨done, rest', heq, hdone, hle, hmax⟩, hopen, hdecode⟩
      refine ⟨c₂, file, ⟨commit :: done, rest', by rw [heq]; rfl, .cons hcommit hdone, hle, ?_⟩, hopen, hdecode⟩
      intro done' rest'' c₃ heq' hrun' hle'
      cases hrun' with
      | nil => simp
      | cons hcommit' hrest' =>
        rw [List.cons_append, List.cons.injEq] at heq'
        rcases heq' with ⟨rfl, heq'⟩
        rw [hcommit'.unique hcommit] at hrest'
        simpa using hmax _ _ _ heq' hrest' hle'
    · -- the cut is inside the line of this commit
      rcases (hrest.grows hbacked.invariant.1).2 with ⟨more, hmore⟩
      rcases hline with rfl | ⟨line, hfile, hnew⟩
      · exact absurd hlow hn
      · have htake : c'.2.take n = c.2 ++ line.take (n - c.2.length) := by
          rw [hfile] at hn hmore
          simp only [List.length_append, List.length_singleton] at hn
          rw [← hmore, List.append_assoc, List.take_append, List.take_of_length_le hlow, List.append_assoc,
            List.take_append_of_le_length (by omega)]
        rcases h.tail (fun hmem => hnew (List.mem_of_mem_take hmem)) with ⟨file, hopen, hdecode⟩
        refine ⟨c, file, ⟨[], commit :: rest, rfl, .nil c, hlow, ?_⟩, by rw [htake]; exact hopen, hdecode⟩
        intro done' rest'' c₃ heq' hrun' hle'
        cases hrun' with
        | nil => exact le_rfl
        | cons hcommit' hrest' =>
          rw [List.cons_append, List.cons.injEq] at heq'
          rcases heq' with ⟨rfl, heq'⟩
          rw [hcommit'.unique hcommit] at hrest'
          exact absurd ((hrest'.grows hbacked.invariant.1).2.length_le.trans hle') hn

/-! ## Where a storage comes from -/

/-- A storage as `create` or `open` returns it, with the file it left. -/
inductive Started (F : NumberFormat) : JsonlStorage × File → Prop where
  | created {c : JsonlStorage × File} (header : JsonlStorageHeader) (initialWrites : List Write) (timestamp : ℕ)
    (hheader : header.Valid) (hversion : header.storageVersion = jsonlStorageVersion)
    (hmark : header.nextSeq = none) (htyped : Typed InMemoryStorageState.empty initialWrites timestamp)
    (h : create F header initialWrites timestamp = .ok c) : Started F c
  | opened {c : JsonlStorage × File} (file : File) (h : openFile F file = .ok c) : Started F c

theorem stringify_ne_nil (v : Json) : stringify F v ≠ [] := by
  rcases stringify_head F v with ⟨u, s, h, -⟩
  rw [h]
  simp

theorem openLines_header {header : JsonlStorageHeader} (hheader : header.Valid)
    (hversion : header.storageVersion = jsonlStorageVersion) (hmark : header.nextSeq = none) :
    openLines F [stringify F (headerJson header)] = .ok ⟨header, InMemoryStorageState.empty⟩ := by
  rw [openLines_eq_ok]
  refine ⟨stringify_ne_nil _, parseJsonlSessionHeader_headerJson F hheader, hversion, InMemoryStorageState.empty, rfl, ?_⟩
  simp [advance, hmark]

/-- A file with a header only, and the empty storage. -/
def headerOnly (F : NumberFormat) (header : JsonlStorageHeader) : JsonlStorage × File :=
  (⟨header, InMemoryStorageState.empty⟩, textEncode (serializeStorage F header []))

theorem backed_headerOnly {header : JsonlStorageHeader} (hheader : header.Valid)
    (hversion : header.storageVersion = jsonlStorageVersion) (hmark : header.nextSeq = none) :
    Backed F (headerOnly F header) := by
  have hline : ∀ l ∈ [stringify F (headerJson header)], IsLine l := by
    intro l hl
    rw [List.mem_singleton.mp hl]
    exact isLine_stringify F _
  refine ⟨[stringify F (headerJson header)].map textEncode, whole_textEncode (by simp) hline, ?_, ?_⟩
  · exact textEncode_joinLines (by simp) fun l hl => (hline l hl).paired
  · rw [map_decodeUtf8_textEncode hline]
    exact openLines_header hheader hversion hmark

/-- Creating a storage with writes is committing them to an empty one. -/
theorem commits_of_create {header : JsonlStorageHeader} {initialWrites : List Write} {timestamp : ℕ}
    {c : JsonlStorage × File} (h : create F header initialWrites timestamp = .ok c) :
    Commits F (headerOnly F header) (initialWrites, timestamp) c := by
  have hpaired : Text.Paired (serializeStorage F header []) := by
    have hline := isLine_stringify F (headerJson header)
    rw [serializeStorage, List.map_nil, joinLines_eq (by simp)]
    simp only [unlines_cons, unlines_nil]
    exact hline.paired.append (.unit (by decide) .nil)
  have hserialize : ∀ ws, textEncode (serializeStorage F header [ws])
      = (headerOnly F header).2 ++ lineBytes F ws := by
    intro ws
    rw [headerOnly, lineBytes, ← textEncode_append hpaired, serializeStorage, serializeStorage, joinLines_eq (by simp),
      joinLines_eq (by simp)]
    simp
  unfold create prepareCommit at h
  have heq := applyCommit_eq (F := F) ⟨header, InMemoryStorageState.empty⟩ (headerOnly F header).2 initialWrites
    timestamp .done rfl
  cases hok : InMemoryStorageState.empty.validateCommitted
      (prepareStorageCommit initialWrites InMemoryStorageState.empty.nextSeq timestamp) with
  | error e =>
    simp only [hok] at h
    cases h
  | ok u =>
    rw [hok] at heq
    simp only [hok, ok_bind, pure, Except.pure, Except.mapError] at h
    cases happly : InMemoryStorageState.empty.applyValidated
        (prepareStorageCommit initialWrites InMemoryStorageState.empty.nextSeq timestamp) with
    | mk memory r =>
      rw [happly] at heq
      simp only [happly] at h
      cases r with
      | error e => cases h
      | ok stats =>
        simp only [Except.ok.injEq] at h
        refine ⟨stats, heq.trans ?_⟩
        rw [← h]
        simp only [List.length_eq_zero_iff]
        by_cases hnil : prepareStorageCommit initialWrites InMemoryStorageState.empty.nextSeq timestamp = []
        · rw [if_pos hnil, if_pos hnil]
          rfl
        · rw [if_neg hnil, if_neg hnil, hserialize]
          rfl

theorem Started.backed {c : JsonlStorage × File} (h : Started F c) : Backed F c := by
  cases h with
  | opened file h => exact (backed_of_openFile h).1
  | created header initialWrites timestamp hheader hversion hmark htyped h =>
    exact ((backed_headerOnly hheader hversion hmark).commit (commits_of_create h) htyped).1

/-- Reopening the file of a storage after any sequence of successful commits gives the storage. Cut anywhere after
its header, the file opens to a storage that is backed by whole lines again, and if the cut is after the start
of the run that storage is the one after the last commit whose line is whole. -/
theorem reopen_after_commits {c c' : JsonlStorage × File} {commits : List (List Write × ℕ)} (hstart : Started F c)
    (hrun : CommitRun F c commits c') (htyped : TypedCommits commits)
    (hseq : c'.1.memory.nextSeq ≤ maxSafeInteger + 1) :
    openFile F c'.2 = .ok c' ∧
      ∀ n, headerLength c'.2 ≤ n → n ≤ c'.2.length →
        ∃ c₁, openFile F (c'.2.take n) = .ok c₁ ∧ openFile F c₁.2 = .ok c₁ ∧ Started F c₁ ∧
          (∃ lines tail, c'.2.take n = unlines 10 lines ++ tail ∧ (10 : UInt8) ∉ tail ∧
            openLines F (lines.map decodeUtf8) = .ok c₁.1 ∧ decodeUtf8 c₁.2 = unlines 10 (lines.map decodeUtf8)) ∧
          (c.2.length ≤ n → ∃ c₂, LastWhole F c commits n c₂ ∧ c₁.1 = c₂.1 ∧ decodeUtf8 c₁.2 = decodeUtf8 c₂.2) := by
  have hbacked := hstart.backed.run hrun htyped hseq
  refine ⟨hbacked.openFile, ?_⟩
  intro n hheader hn
  rcases hbacked.cut hheader with ⟨c₁, hcut⟩
  rcases backed_of_openFile hcut with ⟨hbacked₁, lines, tail, htake, -, htail, hopen, hdecode⟩
  refine ⟨c₁, hcut, hbacked₁.openFile, .opened _ hcut, ⟨lines, tail, htake, htail, hopen, hdecode⟩, ?_⟩
  intro hlow
  rcases hstart.backed.cut_run hrun htyped hseq hlow hn with ⟨c₂, file, hlast, hopen₂, hdecode₂⟩
  rw [hcut] at hopen₂
  cases hopen₂
  exact ⟨c₂, hlast, rfl, hdecode₂⟩

/-- The header of a new session. -/
def sampleHeader : JsonlStorageHeader := ⟨name "s", 1, 0, name "/", none, none, none⟩

def sampleCommit : List Write × ℕ := ([.setValue ⟨name "app", name "k"⟩ (.number 5)], 7)

/-- The session after one commit. -/
def sampleSession : JsonlStorage × File :=
  (applyCommit NumberFormat.fractions (headerOnly NumberFormat.fractions sampleHeader).1
    (headerOnly NumberFormat.fractions sampleHeader).2 sampleCommit.1 sampleCommit.2 .done).1

theorem reopen_after_commits_sample :
    openFile NumberFormat.fractions sampleSession.2 = .ok sampleSession := by
  have hheader : sampleHeader.Valid := ⟨by decide, by decide, by decide, nofun, nofun⟩
  have hstart : Started NumberFormat.fractions (headerOnly NumberFormat.fractions sampleHeader) :=
    .created sampleHeader [] 0 hheader rfl rfl ⟨by simp, by decide, by decide⟩ rfl
  have hrun : CommitRun NumberFormat.fractions (headerOnly NumberFormat.fractions sampleHeader) [sampleCommit]
      sampleSession := .cons ⟨_, rfl⟩ (.nil _)
  refine (reopen_after_commits hstart hrun ?_ ?_).1
  · intro commit hcommit
    rw [List.mem_singleton.mp hcommit]
    refine ⟨?_, by decide⟩
    intro w hw
    rw [List.mem_singleton.mp hw]
    exact .number 5
  · decide

end Phi.Session.Jsonl
