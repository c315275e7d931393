import Phi.Session.Jsonl.Durability

/-!
# Appends that fail

An append may fail after it wrote any part of its line. The commit is then reported as failed and the state in
memory stays, but the bytes stay in the file too, and nothing removes them before the next append goes on behind
them. `reopen_after_failures` is about the runs in which no append comes behind such bytes: there the file opens
to the state in memory, or to that state and the transaction whose whole line the last, failed append wrote.
`append_behind_failed_line` is a run in which one does.
-/

namespace Phi.Session.Jsonl

open InMemoryStorageState

variable {F : NumberFormat}

/-! ## Runs -/

/-- A commit and what its append does. -/
structure Event where
  writes : List Write
  timestamp : ℕ
  append : AppendOutcome

/-- The writes of the commit with the sequences that the state gives them. -/
def Event.prepared (s : InMemoryStorageState) (e : Event) : List CommittedWrite :=
  prepareStorageCommit e.writes s.nextSeq e.timestamp

/-- The commit as the storage makes it. -/
def Event.commit (F : NumberFormat) (c : JsonlStorage × File) (e : Event) :
    (JsonlStorage × File) × Except JsonlError SessionStats :=
  applyCommit F c.1 c.2 e.writes e.timestamp e.append

/-- The bytes the commit adds to the file. -/
def Event.written (F : NumberFormat) (s : InMemoryStorageState) (e : Event) : File :=
  match s.validateCommitted (e.prepared s) with
  | .error _ => []
  | .ok _ =>
    if e.prepared s = [] then []
    else
      match e.append with
      | .done => lineBytes F (e.prepared s)
      | .failed written => (lineBytes F (e.prepared s)).take written

/-- What the commit adds to the bytes that failed appends left behind the last line. -/
def Event.leaves (F : NumberFormat) (s : InMemoryStorageState) (e : Event) : File :=
  match e.append with
  | .done => []
  | .failed _ => e.written F s

def runEvents (F : NumberFormat) (c : JsonlStorage × File) (events : List Event) : JsonlStorage × File :=
  events.foldl (fun c e => (e.commit F c).1) c

/-- No commit writes behind what a failed append left, and no commit stores at an address that cannot be built.
`left` is what failed appends have left so far. -/
def NothingBehind (F : NumberFormat) : JsonlStorage × File → File → List Event → Prop
  | _, _, [] => True
  | c, left, e :: events =>
    Typed c.1.memory e.writes e.timestamp ∧ (left = [] ∨ e.written F c.1.memory = []) ∧
      (∀ w ∈ e.prepared c.1.memory, w.AddressOk) ∧
      NothingBehind F (e.commit F c).1 (left ++ e.leaves F c.1.memory) events

/-! ## Steps -/

/-- The file is the lines of the storage and what failed appends left: a part of one line that would have gone
through. -/
structure Trailing (F : NumberFormat) (c : JsonlStorage × File) (left : File) : Prop where
  lines : ∃ base, c.2 = base ++ left ∧ Backed F (c.1, base)
  left_eq : left ≠ [] → ∃ ws n, left = (lineBytes F ws).take n ∧ ws ≠ [] ∧
    (∀ w ∈ ws, StorableCommitted w ∧ Given w) ∧ c.1.memory.validateCommitted ws = .ok () ∧ ∀ w ∈ ws, w.AddressOk

/-- What a commit does when its addresses can be built. -/
theorem Event.commit_cases (c : JsonlStorage × File) (e : Event) (haddr : ∀ w ∈ e.prepared c.1.memory, w.AddressOk) :
    ((∃ err, (e.commit F c).2 = .error err) ∧ (e.commit F c).1 = (c.1, c.2 ++ e.leaves F c.1.memory) ∧
      (e.leaves F c.1.memory ≠ [] → c.1.memory.validateCommitted (e.prepared c.1.memory) = .ok () ∧
        e.prepared c.1.memory ≠ [] ∧ ∃ n, e.leaves F c.1.memory = (lineBytes F (e.prepared c.1.memory)).take n)) ∨
      ((∃ stats, (e.commit F c).2 = .ok stats) ∧ e.leaves F c.1.memory = [] ∧
        c.1.memory.validateCommitted (e.prepared c.1.memory) = .ok () ∧
        (e.commit F c).1 = ({ c.1 with memory := (e.prepared c.1.memory).foldl InMemoryStorageState.put c.1.memory },
          c.2 ++ e.written F c.1.memory) ∧
        e.written F c.1.memory = if e.prepared c.1.memory = [] then [] else lineBytes F (e.prepared c.1.memory)) := by
  have heq := applyCommit_eq (F := F) c.1 c.2 e.writes e.timestamp e.append
    (show e.prepared c.1.memory = _ from rfl)
  have happly := applyValidated_of_addressOk (s := c.1.memory) haddr
  unfold Event.commit
  rw [heq]
  unfold Event.leaves Event.written
  cases hok : c.1.memory.validateCommitted (e.prepared c.1.memory) with
  | error err =>
    refine Or.inl ⟨⟨_, rfl⟩, ?_, ?_⟩
    · cases e.append <;> simp
    · cases e.append <;> simp
  | ok u =>
    cases happend : e.append with
    | done =>
      refine Or.inr ⟨⟨_, by rw [happly]; rfl⟩, rfl, rfl, ?_, rfl⟩
      simp only [happly]
      split_ifs with hnil
      · simp
      · rfl
    | failed n =>
      simp only
      by_cases hnil : e.prepared c.1.memory = []
      · refine Or.inr ⟨⟨_, by rw [if_pos hnil, happly]; rfl⟩, if_pos hnil, trivial, ?_, ?_⟩
        · rw [if_pos hnil, happly, if_pos hnil, List.append_nil]
        · rw [if_pos hnil, if_pos hnil]
      · refine Or.inl ⟨⟨_, by rw [if_neg hnil]⟩, ?_, ?_⟩
        · rw [if_neg hnil, if_neg hnil]
        · intro _
          exact ⟨trivial, hnil, n, if_neg hnil⟩

/-- A file that ends with a part of a line opens to the storage, with the transaction of that line if all of it
is there. -/
theorem Trailing.openFile {c : JsonlStorage × File} {left : File} (h : Trailing F c left) :
    ∃ extra file, Jsonl.openFile F c.2
      = .ok ({ c.1 with memory := extra.foldl InMemoryStorageState.put c.1.memory }, file) ∧
      (left = [] → extra = []) := by
  rcases h.lines with ⟨base, hfile, hbacked⟩
  by_cases hleft : left = []
  · subst hleft
    rw [List.append_nil] at hfile
    refine ⟨[], base, ?_, fun _ => rfl⟩
    rw [hfile]
    exact hbacked.openFile
  · rcases h.left_eq hleft with ⟨ws, n, hws, hne, htyped, hok, haddr⟩
    have hline : IsLine (serializeTransaction F ws) := isLine_stringify F _
    have hbytes : lineBytes F ws = textEncode (serializeTransaction F ws) ++ [10] :=
      textEncode_append hline.paired [10]
    by_cases hn : (lineBytes F ws).length ≤ n
    · -- the whole line was written
      rw [List.take_of_length_le hn] at hws
      have hbacked' : Backed F ({ c.1 with memory := ws.foldl InMemoryStorageState.put c.1.memory }, c.2) := by
        rw [hfile, hws, hbytes]
        exact hbacked.line hne htyped hok haddr
      exact ⟨ws, c.2, hbacked'.openFile, fun h => absurd h hleft⟩
    · have hpart : (10 : UInt8) ∉ left := by
        rw [hws, hbytes]
        rw [hbytes, List.length_append, List.length_singleton] at hn
        rw [List.take_append_of_le_length (by omega)]
        exact fun hmem => newline_not_mem_textEncode hline.paired hline.newline (List.mem_of_mem_take hmem)
      rcases hbacked.tail hpart with ⟨file, hopen, -⟩
      refine ⟨[], file, ?_, fun _ => rfl⟩
      rw [hfile]
      exact hopen

theorem lineBytes_eq (ws : List CommittedWrite) :
    lineBytes F ws = textEncode (serializeTransaction F ws) ++ [10] :=
  textEncode_append (isLine_stringify F _).paired [10]

theorem lineBytes_ne_nil (ws : List CommittedWrite) : lineBytes F ws ≠ [] := by
  rw [lineBytes_eq]
  simp

/-- One commit keeps the file in order, and memory has what the commits reported successful. -/
theorem Trailing.commit {c : JsonlStorage × File} {left : File} (h : Trailing F c left) {e : Event}
    (htyped : Typed c.1.memory e.writes e.timestamp) (hbehind : left = [] ∨ e.written F c.1.memory = [])
    (haddr : ∀ w ∈ e.prepared c.1.memory, w.AddressOk) :
    Trailing F (e.commit F c).1 (left ++ e.leaves F c.1.memory) := by
  rcases h.lines with ⟨base, hfile, hbacked⟩
  rcases e.commit_cases (F := F) c haddr with ⟨-, hc, hleaves⟩ | ⟨-, hleaves, hok, hc, hwritten⟩
  · rw [hc]
    refine ⟨⟨base, by rw [hfile, List.append_assoc], hbacked⟩, ?_⟩
    intro hne
    by_cases hnone : e.leaves F c.1.memory = []
    · rw [hnone, List.append_nil] at hne ⊢
      exact h.left_eq hne
    · -- something is left by this commit, so nothing was before
      rcases hleaves hnone with ⟨hok, hprepared, n, htake⟩
      have hwritten : e.written F c.1.memory ≠ [] := by
        intro hnil
        unfold Event.leaves at hnone
        cases happend : e.append with
        | done =>
          rw [happend] at hnone
          exact hnone rfl
        | failed n =>
          rw [happend] at hnone
          exact hnone hnil
      have hleft := hbehind.resolve_right hwritten
      rw [hleft, List.nil_append]
      exact ⟨_, n, htake, hprepared, hbacked.given htyped, hok, haddr⟩
  · rw [hc, hleaves, List.append_nil]
    by_cases hnil : e.prepared c.1.memory = []
    · rw [if_pos hnil] at hwritten
      rw [hnil, hwritten, List.append_nil]
      exact ⟨⟨base, hfile, hbacked⟩, h.left_eq⟩
    · rw [if_neg hnil] at hwritten
      have hleft : left = [] := by
        refine hbehind.resolve_right ?_
        rw [hwritten]
        exact lineBytes_ne_nil _
      subst hleft
      rw [List.append_nil] at hfile
      refine ⟨⟨base ++ lineBytes F (e.prepared c.1.memory), ?_, ?_⟩, fun hne => absurd rfl hne⟩
      · rw [hfile, hwritten, List.append_nil]
      · rw [lineBytes_eq]
        exact hbacked.line hnil (hbacked.given htyped) hok haddr

theorem Trailing.run {c : JsonlStorage × File} {left : File} {events : List Event} (h : Trailing F c left)
    (hrun : NothingBehind F c left events) : ∃ left', Trailing F (runEvents F c events) left' := by
  induction events generalizing c left with
  | nil => exact ⟨left, h⟩
  | cons e events ih =>
    rcases hrun with ⟨htyped, hbehind, haddr, hrest⟩
    exact ih (h.commit htyped hbehind haddr) hrest

theorem NothingBehind.append {c : JsonlStorage × File} {left : File} {before after : List Event}
    (h : NothingBehind F c left (before ++ after)) :
    NothingBehind F c left before ∧ ∃ left', NothingBehind F (runEvents F c before) left' after := by
  induction before generalizing c left with
  | nil => exact ⟨trivial, left, h⟩
  | cons e before ih =>
    rcases h with ⟨htyped, hbehind, haddr, hrest⟩
    rcases ih hrest with ⟨hbefore, left', hafter⟩
    exact ⟨⟨htyped, hbehind, haddr, hbefore⟩, left', hafter⟩

end Phi.Session.Jsonl
