import CdcFlight.Lib.Journal
import CdcFlight.Lib.Text

/-!
# The fenced handle

`destination_fence`: a connection or cursor that runs a lease fence in the transaction of every
mutation. It finds what a statement is from its first keyword, and remembers in a flag whether the
raw handle has an open transaction. The driver is a parameter that says what a statement is; of the
calls on the raw handle the environment decides which ones raise. A COMMIT or ROLLBACK that raises
leaves no open transaction.

## Main definitions

* `CdcFlight.classify`: `_is_transaction_control` and `is_destination_mutation`.
* `CdcFlight.FencedHandle.call`: the calls of the wrapper.
* `CdcFlight.FencedHandle.Sound`, `CdcFlight.FencedHandle.EndsByRaising`.

## Main results

* `CdcFlight.FencedHandle.sound_run_iff`: as long as the statements are what they are taken for,
  every mutation is fenced in its own transaction if and only if no explicit end of an open
  transaction raises.
-/

namespace CdcFlight

open Lib

/-! ### What a statement is taken for -/

section Text

/-- `str.lower`, as far as it leads to ASCII letters: beside those of ASCII, the Kelvin sign. -/
def lower (c : Char) : Char := if c.toNat = 0x212a then 'k' else c.toLower

/-- The text after a comment that ends with its line. -/
def afterLine : List Char → List Char
  | [] => []
  | c :: text => if c = '\n' then text else afterLine text

/-- The text after a comment in brackets, if it is closed. -/
def afterBlock : List Char → Option (List Char)
  | '*' :: '/' :: text => some text
  | _ :: text => afterBlock text
  | [] => none

/-- `_LEADING_COMMENT.sub`: the text without leading blanks and comments. -/
def skipComments : ℕ → List Char → List Char
  | 0, text => text
  | fuel + 1, '-' :: '-' :: text => skipComments fuel (afterLine text)
  | fuel + 1, '/' :: '*' :: text =>
    match afterBlock text with
    | some rest => skipComments fuel rest
    | none => '/' :: '*' :: text
  | fuel + 1, c :: text => if isSpace c then skipComments fuel text else c :: text
  | _ + 1, [] => []

/-- The statement without leading blanks and comments, in lower case. -/
def statementText (sql : String) : List Char :=
  ((skipComments sql.length sql.toList).dropWhile isSpace).map lower

/-- `_first_keyword`. -/
def firstKeyword (sql : String) : String :=
  String.ofList ((statementText sql).takeWhile fun c => !isSpace c)

/-- What a statement does to the transaction of its handle. -/
inductive StatementKind
  | begin
  | commit
  | rollback
  | mutation
  | read
deriving DecidableEq, Repr

/-- `_is_transaction_control`. The semicolons and blanks at the end that the source strips before
it looks for `rollback to` do not matter for that. -/
def transactionControl (sql : String) : Option StatementKind :=
  let keyword := firstKeyword sql
  if keyword = "begin" ∨ keyword = "start" then some .begin
  else if keyword = "commit" ∨ keyword = "end" then some .commit
  else if keyword = "rollback" ∧ ¬ "rollback to".toList <+: statementText sql then some .rollback
  else none

/-- `is_destination_mutation`. -/
def isDestinationMutation (sql : String) : Bool :=
  (transactionControl sql).isNone &&
    firstKeyword sql ∉ ["", "select", "show", "describe", "desc", "explain", "pragma", "set",
      "reset", "use", "load", "install"]

/-- What the wrapper takes a statement for. -/
def classify (sql : String) : StatementKind :=
  match transactionControl sql with
  | some kind => kind
  | none => if isDestinationMutation sql then .mutation else .read

-- with its semicolon it is no transaction control
example : classify " -- end of group\nCOMMIT" = .commit ∧ classify "COMMIT;" = .mutation := by
  decide

end Text

/-! ### The raw handle -/

/-- An open transaction of the raw handle, with whether a fence was executed in it. -/
structure RawTransaction where
  fenced : Bool := false
deriving DecidableEq, Repr

/-- A mutation that has reached the raw handle: the flag and the transaction at this moment. -/
structure ReachedMutation where
  inTransaction : Bool
  raw : Option RawTransaction
deriving DecidableEq, Repr

/-- `_FencedOperations`: the flag, and the raw handle with the mutations that have reached it. -/
structure FencedHandle where
  inTransaction : Bool := false
  raw : Option RawTransaction := none
  reached : List ReachedMutation := []
deriving DecidableEq, Repr

/-- What a call of the wrapper executes on the raw handle, at most once each. -/
inductive RawCall
  | begin
  | fence
  | operation
  | commit
  | rollback
deriving DecidableEq

/-- A call of the wrapper, with what raises in it. -/
inductive FencedCall
  | execute (sql : String) (raises : RawCall → Bool)
  | executemany (sql : String) (raises : RawCall → Bool)
  | append (raises : RawCall → Bool)
  | sql (text : String) (raises : RawCall → Bool)
  | commit (raises : RawCall → Bool)
  | rollback (raises : RawCall → Bool)

namespace FencedHandle

/-- The next statement, unless the one before has raised. -/
def andThen (result : FencedHandle × Bool) (next : FencedHandle → FencedHandle × Bool) :
    FencedHandle × Bool :=
  if result.2 then next result.1 else result

/-- The flag is set. -/
def setFlag (value : Bool) (s : FencedHandle) : FencedHandle × Bool :=
  ({ s with inTransaction := value }, true)

/-- A statement on the raw handle, and whether it returns. A transaction is not begun inside
another one. -/
def rawExecute (kind : StatementKind) (raises : Bool) (s : FencedHandle) : FencedHandle × Bool :=
  match kind with
  | .begin => if s.raw.isSome || raises then (s, false) else ({ s with raw := some {} }, true)
  | .commit => ({ s with raw := none }, !raises)
  | .rollback => ({ s with raw := none }, !raises)
  | .mutation => ({ s with reached := s.reached ++ [⟨s.inTransaction, s.raw⟩] }, !raises)
  | .read => (s, !raises)

/-- `_assert_and_fence`: without an open transaction the fence is one of its own. -/
def assertAndFence (raises : Bool) (s : FencedHandle) : FencedHandle × Bool :=
  if raises then (s, false) else ({ s with raw := s.raw.map fun _ => { fenced := true } }, true)

/-- `_run_mutation`, where the driver takes the statement for one of the kind. -/
def runMutation (kind : StatementKind) (raises : RawCall → Bool) (s : FencedHandle) :
    FencedHandle × Bool :=
  if s.inTransaction then
    andThen (assertAndFence (raises .fence) s) (rawExecute kind (raises .operation))
  else
    andThen (andThen (rawExecute .begin (raises .begin) s) (setFlag true)) fun s =>
      let result := andThen (andThen (andThen (assertAndFence (raises .fence) s)
        (rawExecute kind (raises .operation))) (rawExecute .commit (raises .commit)))
        (setFlag false)
      if result.2 then result
      else
        let rolledBack := (rawExecute .rollback (raises .rollback) result.1).1
        ({ rolledBack with inTransaction := false }, false)

/-- One call of the wrapper, where `kindOf` is what the driver takes a statement for. -/
def call (kindOf : String → StatementKind) (s : FencedHandle) : FencedCall → FencedHandle × Bool
  | .execute sql raises =>
    match classify sql with
    | .begin => andThen (rawExecute (kindOf sql) (raises .operation) s) (setFlag true)
    | .commit => andThen (rawExecute (kindOf sql) (raises .operation) s) (setFlag false)
    | .rollback => andThen (rawExecute (kindOf sql) (raises .operation) s) (setFlag false)
    | .read => rawExecute (kindOf sql) (raises .operation) s
    | .mutation => runMutation (kindOf sql) raises s
  | .executemany sql raises => runMutation (kindOf sql) raises s
  | .append raises => runMutation .mutation raises s
  | .sql text raises =>
    if isDestinationMutation text then runMutation (kindOf text) raises s
    else rawExecute (kindOf text) (raises .operation) s
  | .commit raises => andThen (rawExecute .commit (raises .operation) s) (setFlag false)
  | .rollback raises => andThen (rawExecute .rollback (raises .operation) s) (setFlag false)

/-- A run of calls, each of which may raise. -/
def run (kindOf : String → StatementKind) (calls : List FencedCall) : FencedHandle :=
  calls.foldl (fun s c => (s.call kindOf c).1) {}

/-! ### What the wrapper promises -/

/-- The flag tells whether a transaction is open, and every mutation was fenced in its own. -/
structure Sound (s : FencedHandle) : Prop where
  flag : s.inTransaction = s.raw.isSome
  reached : ∀ m ∈ s.reached, m.raw = some { fenced := true } ∧ m.inTransaction = m.raw.isSome

/-- The statement is what the wrapper takes it for, or a read that it takes for a mutation. -/
def Classified (kind taken : StatementKind) : Prop :=
  kind = taken ∨ kind = .read ∧ taken = .mutation

/-- Transactions are controlled by `execute`, `commit` and `rollback` alone, and every statement
is what it is taken for. -/
def WellFormed (kindOf : String → StatementKind) : FencedCall → Prop
  | .execute sql _ => Classified (kindOf sql) (classify sql)
  | .executemany sql _ => kindOf sql = .mutation ∨ kindOf sql = .read
  | .sql text _ => (kindOf text = .mutation ∨ kindOf text = .read) ∧
      Classified (kindOf text) (classify text)
  | _ => True

/-- An explicit COMMIT or ROLLBACK of an open transaction raises, as a statement or as a call of the
handle. What raises inside a call is given with it. -/
def EndsByRaising (kindOf : String → StatementKind) (s : FencedHandle) : FencedCall → Prop
  | .execute sql raises =>
    (kindOf sql = .commit ∨ kindOf sql = .rollback) ∧ s.raw.isSome ∧ raises .operation
  | .commit raises => s.raw.isSome ∧ raises .operation
  | .rollback raises => s.raw.isSome ∧ raises .operation
  | _ => False

variable {s : FencedHandle} {kindOf : String → StatementKind}

/-- A statement that is no transaction control leaves the flag and the transaction; a mutation is
noted. -/
theorem rawExecute_of_data {kind : StatementKind} (hkind : kind = .mutation ∨ kind = .read)
    (raises : Bool) (s : FencedHandle) :
    (rawExecute kind raises s).2 = !raises ∧
      ((rawExecute kind raises s).1 = s ∨
        (rawExecute kind raises s).1 =
          { s with reached := s.reached ++ [⟨s.inTransaction, s.raw⟩] }) := by
  rcases hkind with rfl | rfl
  · exact ⟨rfl, Or.inr rfl⟩
  · exact ⟨rfl, Or.inl rfl⟩

/-- After a fence the transaction is fenced, and a statement that follows keeps all sound. -/
theorem Sound.rawExecute_of_fenced {kind : StatementKind}
    (hkind : kind = .mutation ∨ kind = .read) (raises : Bool) (h : s.Sound)
    (hfenced : s.raw = some { fenced := true }) : (rawExecute kind raises s).1.Sound := by
  rcases (rawExecute_of_data hkind raises s).2 with heq | heq
  · rw [heq]
    exact h
  · rw [heq]
    refine ⟨h.flag, fun m hm => ?_⟩
    rcases List.mem_append.1 hm with hold | hnew
    · exact h.reached m hold
    · rw [List.mem_singleton.1 hnew]
      exact ⟨hfenced, h.flag⟩

/-- The flag and the raw transaction are both ended. -/
theorem Sound.ended (h : s.Sound) : ({ s with inTransaction := false, raw := none } :
    FencedHandle).Sound :=
  ⟨rfl, h.reached⟩

/-- The raw transaction is begun with the flag. -/
theorem Sound.begun (h : s.Sound) (raw : RawTransaction) :
    ({ s with inTransaction := true, raw := some raw } : FencedHandle).Sound :=
  ⟨rfl, h.reached⟩

/-- The next statement runs after a sound one that returns. -/
theorem sound_andThen {result : FencedHandle × Bool} {next : FencedHandle → FencedHandle × Bool}
    (h : result.1.Sound) (hnext : result.2 → (next result.1).1.Sound) :
    (andThen result next).1.Sound := by
  by_cases hreturned : result.2
  · rw [andThen, if_pos hreturned]
    exact hnext hreturned
  · rw [andThen, if_neg hreturned]
    exact h

/-- A fence and the statement after it keep all sound, inside of an open transaction. -/
theorem Sound.fenceThen {kind : StatementKind} (hkind : kind = .mutation ∨ kind = .read)
    (raises raises' : Bool) (h : s.Sound) (hopen : s.raw.isSome) :
    (andThen (assertAndFence raises s) (rawExecute kind raises')).1.Sound := by
  by_cases hfence : raises
  · rw [assertAndFence, if_pos hfence]
    exact h
  · obtain ⟨raw, hraw⟩ := Option.isSome_iff_exists.1 hopen
    have hfenced : ({ s with raw := s.raw.map fun _ => { fenced := true } } :
        FencedHandle).Sound := ⟨by rw [h.flag, hraw]; rfl, h.reached⟩
    rw [assertAndFence, if_neg hfence]
    refine sound_andThen hfenced fun _ => ?_
    exact hfenced.rawExecute_of_fenced hkind _ (by simp only [hraw, Option.map_some])

theorem Sound.runMutation {kind : StatementKind} (hkind : kind = .mutation ∨ kind = .read)
    (raises : RawCall → Bool) (h : s.Sound) : (runMutation kind raises s).1.Sound := by
  have hflag := h.flag
  by_cases hin : s.inTransaction
  · rw [FencedHandle.runMutation, if_pos hin]
    exact h.fenceThen hkind _ _ (hflag.symm.trans hin)
  · have hraw : s.raw.isSome = false := by rw [← hflag, Bool.eq_false_iff.2 hin]
    rw [FencedHandle.runMutation, if_neg hin]
    by_cases hbegin : raises .begin
    · -- nothing was begun
      simpa [rawExecute, andThen, hbegin] using h
    · have hbegun := (h.begun {}).fenceThen hkind (raises .fence) (raises .operation) rfl
      have hbegin' : andThen (rawExecute .begin (raises .begin) s) (setFlag true) =
          ({ s with inTransaction := true, raw := some {} }, true) := by
        simp [rawExecute, andThen, setFlag, hraw, hbegin]
      rw [hbegin', andThen, if_pos rfl]
      simp only
      generalize andThen (assertAndFence (raises .fence) _) _ = result at hbegun ⊢
      by_cases hreturned : result.2 ∧ raises .commit = false
      · simpa [andThen, rawExecute, setFlag, hreturned] using hbegun.ended
      · -- the rollback ends the transaction, and the flag is cleared whether it raises or not
        have hfailed : (andThen (andThen result (rawExecute .commit (raises .commit)))
            (setFlag false)).2 = false ∧
            (andThen (andThen result (rawExecute .commit (raises .commit)))
              (setFlag false)).1.reached = result.1.reached := by
          by_cases hret : result.2
          · have hcommit : raises .commit = true := by
              rcases not_and_or.1 hreturned with hno | hraise
              · exact absurd hret hno
              · simpa using hraise
            simp [andThen, rawExecute, hret, hcommit]
          · simp [andThen, hret]
        rw [if_neg (by simp [hfailed.1])]
        refine ⟨rfl, fun m hm => hbegun.reached m ?_⟩
        rw [← hfailed.2]
        exact hm

/-- An explicit begin of a transaction sets the flag with it, unless it raises. -/
theorem Sound.beginTransaction (h : s.Sound) (raises : Bool) :
    (andThen (rawExecute .begin raises s) (setFlag true)).1.Sound := by
  by_cases hrefused : s.raw.isSome || raises
  · rw [rawExecute, if_pos hrefused]
    exact h
  · rw [rawExecute, if_neg hrefused]
    exact h.begun {}

/-- An explicit end of a transaction ends the flag with it, unless it raises. -/
theorem Sound.endTransaction {kind : StatementKind} (hkind : kind = .commit ∨ kind = .rollback)
    {raises : Bool} (h : s.Sound) (hraises : ¬ (s.raw.isSome ∧ raises)) :
    (andThen (rawExecute kind raises s) (setFlag false)).1.Sound := by
  have hexecute : rawExecute kind raises s = ({ s with raw := none }, !raises) := by
    rcases hkind with rfl | rfl <;> rfl
  rw [hexecute]
  by_cases hraise : raises
  · -- nothing was open
    have hclosed : s.raw.isSome = false := by
      by_contra hopen
      exact hraises ⟨by simpa [Option.isSome_iff_ne_none] using hopen, hraise⟩
    have hflag := h.flag.trans hclosed
    simpa [andThen, hraise, hflag] using h.ended
  · simpa [andThen, hraise, setFlag] using h.ended

theorem classify_eq_mutation_iff {sql : String} :
    classify sql = .mutation ↔ isDestinationMutation sql = true := by
  have hcontrol : transactionControl sql ≠ some .mutation := by
    rw [transactionControl]
    split_ifs <;> simp
  cases h : transactionControl sql with
  | none => simp [classify, h]
  | some kind =>
    have hne : kind ≠ .mutation := fun heq => hcontrol (by rw [h, heq])
    simp [classify, h, isDestinationMutation, hne]

/-- A call keeps all sound unless it ends a transaction and raises. -/
theorem Sound.call {c : FencedCall} (h : s.Sound) (hwell : WellFormed kindOf c)
    (hraises : ¬ s.EndsByRaising kindOf c) : (s.call kindOf c).1.Sound := by
  cases c with
  | execute sql raises =>
    simp only [FencedHandle.call]
    simp only [WellFormed, Classified] at hwell
    cases hkind : classify sql with
    | begin =>
      have hbegin : kindOf sql = .begin := by simpa [hkind] using hwell
      rw [hbegin]
      exact h.beginTransaction (raises .operation)
    | commit =>
      have hcommit : kindOf sql = .commit := by simpa [hkind] using hwell
      exact h.endTransaction (Or.inl hcommit) fun hopen => hraises ⟨Or.inl hcommit, hopen⟩
    | rollback =>
      have hrollback : kindOf sql = .rollback := by simpa [hkind] using hwell
      exact h.endTransaction (Or.inr hrollback) fun hopen => hraises ⟨Or.inr hrollback, hopen⟩
    | read =>
      have hread : kindOf sql = .read := by simpa [hkind] using hwell
      rw [hread]
      exact h
    | mutation => exact h.runMutation (by simpa [hkind] using hwell) raises
  | executemany sql raises => exact h.runMutation hwell raises
  | append raises => exact h.runMutation (Or.inl rfl) raises
  | sql text raises =>
    simp only [FencedHandle.call]
    by_cases hmutation : isDestinationMutation text
    · rw [if_pos hmutation]
      exact h.runMutation hwell.1 raises
    · rw [if_neg hmutation]
      have hread : kindOf text = .read := by
        refine hwell.1.resolve_left fun hkind => hmutation (classify_eq_mutation_iff.1 ?_)
        simpa [Classified, hkind, eq_comm] using hwell.2
      rw [hread]
      exact h
  | commit raises => exact h.endTransaction (Or.inl rfl) hraises
  | rollback raises => exact h.endTransaction (Or.inr rfl) hraises

/-- A transaction that ends by raising leaves the flag behind. -/
theorem not_sound_of_raising {kind : StatementKind} (hkind : kind = .commit ∨ kind = .rollback)
    {raises : Bool} (h : s.Sound) (hopen : s.raw.isSome) (hraises : raises) :
    ¬ (andThen (rawExecute kind raises s) (setFlag false)).1.Sound := by
  have hexecute : rawExecute kind raises s = ({ s with raw := none }, !raises) := by
    rcases hkind with rfl | rfl <;> rfl
  have hflag := h.flag.trans hopen
  rw [hexecute, hraises]
  intro hafter
  have hafterFlag := hafter.flag
  simp [andThen, hflag] at hafterFlag

/-- A call that ends a transaction and raises leaves the flag behind. -/
theorem not_sound_of_endsByRaising {c : FencedCall} (h : s.Sound) (hwell : WellFormed kindOf c)
    (hraises : s.EndsByRaising kindOf c) : ¬ (s.call kindOf c).1.Sound := by
  cases c with
  | execute sql raises =>
    obtain ⟨hkind, hopen, hraise⟩ := hraises
    simp only [FencedHandle.call]
    simp only [WellFormed, Classified] at hwell
    have hsame : classify sql = kindOf sql := by
      rcases hwell with heq | ⟨hread, -⟩
      · exact heq.symm
      · simp [hread] at hkind
    have hnot := not_sound_of_raising hkind h hopen hraise
    rcases hkind with hkind | hkind
    · rw [hsame]
      simpa only [hkind] using hnot
    · rw [hsame]
      simpa only [hkind] using hnot
  | commit raises => exact not_sound_of_raising (Or.inl rfl) h hraises.1 hraises.2
  | rollback raises => exact not_sound_of_raising (Or.inr rfl) h hraises.1 hraises.2
  | executemany sql raises => exact hraises.elim
  | append raises => exact hraises.elim
  | sql text raises => exact hraises.elim

/-- In every state of a run the flag is right and every mutation was fenced in its own
transaction, if and only if no explicit COMMIT or ROLLBACK of an open transaction raises. -/
theorem sound_run_iff (calls : List FencedCall) (hwell : ∀ c ∈ calls, WellFormed kindOf c) :
    (∀ done todo, calls = done ++ todo → (run kindOf done).Sound) ↔
      EachAfter (fun done c => ¬ (run kindOf done).EndsByRaising kindOf c) calls := by
  have hrun (done : List FencedCall) (c : FencedCall) :
      run kindOf (done ++ [c]) = ((run kindOf done).call kindOf c).1 := by
    simp [run]
  constructor
  · rintro hsound done c todo hcalls hraises
    have hmem : c ∈ calls := by simp [hcalls]
    have hafter := hsound (done ++ [c]) todo (by simp [hcalls])
    rw [hrun] at hafter
    exact not_sound_of_endsByRaising (hsound done (c :: todo) hcalls) (hwell c hmem) hraises hafter
  · rintro hcalls done todo rfl
    have hdone := hcalls.of_append
    have hwell' : ∀ c ∈ done, WellFormed kindOf c := fun c hc => hwell c (by simp [hc])
    clear hcalls hwell
    induction done using List.reverseRecOn with
    | nil => exact ⟨rfl, by simp [run]⟩
    | append_singleton done c ih =>
      obtain ⟨hbefore, hraises⟩ := eachAfter_append_singleton.1 hdone
      rw [hrun]
      exact (ih hbefore fun c hc => hwell' c (by simp [hc])).call (hwell' c (by simp)) hraises

end FencedHandle

/-! ### A group whose COMMIT raises -/

namespace Accounts

open FencedHandle

/-- A group of one write, whose COMMIT raises if `raising`, and a write after it. -/
def groupAndWrite (raising : Bool) : List FencedCall :=
  [.execute "BEGIN TRANSACTION" fun _ => false, .execute "INSERT INTO t VALUES (1)" fun _ => false,
    .execute "COMMIT" fun _ => raising, .execute "INSERT INTO t VALUES (2)" fun _ => false]

theorem sound_groupAndWrite : (run classify (groupAndWrite false)).Sound := by
  refine (sound_run_iff (groupAndWrite false) ?_).2 ?_ (groupAndWrite false) [] (by simp)
  · rintro c hc
    simp only [groupAndWrite, List.mem_cons, List.not_mem_nil, or_false] at hc
    rcases hc with rfl | rfl | rfl | rfl <;> exact Or.inl rfl
  · rintro done c todo hcalls hraises
    have hc : c ∈ groupAndWrite false := by simp [hcalls]
    simp only [groupAndWrite, List.mem_cons, List.not_mem_nil, or_false] at hc
    rcases hc with rfl | rfl | rfl | rfl <;> simp [EndsByRaising] at hraises

/-- After a COMMIT that raises, the next write runs in no transaction and is not fenced. -/
theorem not_sound_groupAndWrite : ¬ (run classify (groupAndWrite true)).Sound := by
  have hreached : { inTransaction := true, raw := none } ∈
      (run classify (groupAndWrite true)).reached := by
    decide
  intro hsound
  have hfenced := (hsound.reached _ hreached).1
  simp at hfenced

end Accounts

end CdcFlight
