import Synaptica.Cluster.LogEntryJson
import Synaptica.Core.Text

/-!
# The decision log on disk

A `DistributedTxLog` with a file appends every entry to it as one line of JSON. After a crash
`recover_from_file` reads the lines that parse and goes on appending where the file ends. It does
not look whether the last line is complete, so that the first entry logged after the recovery ends
up on the same line as the torn one.

* `exists_cut` — what a file truncated anywhere consists of.
* `recover_file_append` — what a recovery makes of whole lines followed by a torn one.
* `survives_iff` — the log survives a torn tail and a second recovery exactly when the crash fell
  between two lines, or nothing is logged after it and the tail is still UTF-8.
-/

namespace Synaptica.Cluster

inductive IoError where
  | invalidData
  deriving DecidableEq, Repr

/-- The log with the contents of its file, if it has one. -/
structure DistributedTxLog where
  entries : List LogEntry
  walFile : Option Bytes
  deriving DecidableEq, Repr

namespace DistributedTxLog

variable (json : SerdeJson)

def new : DistributedTxLog := { entries := [], walFile := none }

/-- `with_path`, on a path whose file has the given contents. -/
def withPath (contents : Bytes) : DistributedTxLog := { entries := [], walFile := some contents }

def recoverFromFile (contents : Bytes) : Except IoError DistributedTxLog :=
  match readToString contents with
  | none => .error .invalidData
  | some text =>
    .ok { entries := (lines text).filterMap json.fromStr, walFile := some contents }

def persistEntry (log : DistributedTxLog) (entry : LogEntry) : DistributedTxLog :=
  { log with walFile := log.walFile.map (· ++ utf8 (json.toString entry ++ "\n")) }

def record (log : DistributedTxLog) (entry : LogEntry) : DistributedTxLog :=
  { log with entries := log.entries ++ [entry] }.persistEntry json entry

def logPrepare (log : DistributedTxLog) (txId : DistributedTxId)
    (participants : List PartitionId) : DistributedTxLog :=
  log.record json (.prepare txId participants)

def logCommit (log : DistributedTxLog) (txId : DistributedTxId) : DistributedTxLog :=
  log.record json (.commit txId)

def logAbort (log : DistributedTxLog) (txId : DistributedTxId) : DistributedTxLog :=
  log.record json (.abort txId)

/-- The call that logs the entry. -/
def logEntry (log : DistributedTxLog) : LogEntry → DistributedTxLog
  | .prepare txId participants => log.logPrepare json txId participants
  | .commit txId => log.logCommit json txId
  | .abort txId => log.logAbort json txId

/-- A sequence of calls. -/
def logEntries (log : DistributedTxLog) (es : List LogEntry) : DistributedTxLog :=
  es.foldl (logEntry json) log

/-- The contents of the log's file. -/
def contents (log : DistributedTxLog) : Bytes := log.walFile.getD []

end DistributedTxLog

open DistributedTxLog

variable (json : SerdeJson)

/-- The entries of a log whose JSON lies within the first `n` bytes of its file. -/
def onDisk : List LogEntry → Nat → List LogEntry
  | [], _ => []
  | e :: es, n =>
    if (utf8 (json.toString e)).length ≤ n then
      e :: onDisk es (n - (utf8 (json.toString e ++ "\n")).length)
    else []

/-- The contents of the file after a crash that keeps `n` bytes of it. -/
def crashed (es : List LogEntry) (n : Nat) : Bytes :=
  ((withPath []).logEntries json es).contents.take n

/-- The log is recovered after the crash, used for `further`, and recovered again: the second
recovery finds what was on disk at the crash and everything logged after it. -/
def Survives (es : List LogEntry) (n : Nat) (further : List LogEntry) : Prop :=
  ∃ first second, recoverFromFile json (crashed json es n) = .ok first ∧
    recoverFromFile json (first.logEntries json further).contents = .ok second ∧
    second.entries = onDisk json es n ++ further

/-- The crash falls between two lines of the file. -/
def AtLineEnd (es : List LogEntry) (n : Nat) : Prop :=
  ∃ k, crashed json es n = ((withPath []).logEntries json (es.take k)).contents

/-! ## The file -/

/-- The lines of the entries. -/
def file : List LogEntry → String
  | [] => ""
  | e :: es => json.toString e ++ "\n" ++ file es

theorem logEntry_eq_record (log : DistributedTxLog) (e : LogEntry) :
    log.logEntry json e = log.record json e := by
  cases e <;> rfl

theorem walFile_logEntries {log : DistributedTxLog} {contents : Bytes}
    (h : log.walFile = some contents) (es : List LogEntry) :
    (log.logEntries json es).walFile = some (contents ++ utf8 (file json es)) := by
  induction es generalizing log contents with
  | nil => simp [logEntries, file, h, utf8_eq_nil.mpr]
  | cons e es ih =>
    have hrecord : (log.logEntry json e).walFile =
        some (contents ++ utf8 (json.toString e ++ "\n")) := by
      simp [logEntry_eq_record, record, persistEntry, h]
    have hrest := ih hrecord
    simpa [logEntries, file] using hrest

theorem contents_logEntries {log : DistributedTxLog} {contents : Bytes}
    (h : log.walFile = some contents) (es : List LogEntry) :
    (log.logEntries json es).contents = contents ++ utf8 (file json es) := by
  simp [DistributedTxLog.contents, walFile_logEntries json h es]

theorem contents_withPath_logEntries (es : List LogEntry) :
    ((withPath []).logEntries json es).contents = utf8 (file json es) := by
  have hpath : (withPath []).walFile = some [] := rfl
  simpa using contents_logEntries json hpath es

theorem file_append (es es' : List LogEntry) :
    file json (es ++ es') = file json es ++ file json es' := by
  induction es with
  | nil => simp [file]
  | cons e es ih => simp [file, ih, String.append_assoc]

/-- A recovery from a file that is text. -/
theorem recoverFromFile_utf8 (text : String) :
    recoverFromFile json (utf8 text) =
      .ok ⟨(lines text).filterMap json.fromStr, some (utf8 text)⟩ := by
  unfold recoverFromFile
  rw [readToString_utf8]

variable {json}

section Recovery

variable (hjson : json.Lawful)

include hjson

/-- An empty entry would be a torn one. -/
theorem SerdeJson.Lawful.toString_ne_empty (e : LogEntry) : json.toString e ≠ "" := by
  intro hempty
  obtain ⟨e', hne⟩ : ∃ e' : LogEntry, e' ≠ e := by
    by_cases he : e = .commit ⟨""⟩
    · exact ⟨.abort ⟨""⟩, by simp [he]⟩
    · exact ⟨.commit ⟨""⟩, fun h => he h.symm⟩
  have hread := hjson.fromStr_toString e
  have hread' := hjson.fromStr_toString e'
  rw [hempty] at hread
  by_cases hempty' : json.toString e' = ""
  · rw [hempty', hread] at hread'
    exact hne (Option.some.inj hread').symm
  · have htorn := hjson.fromStr_torn e' "" (json.toString e') (by simp) hempty'
    rw [hread] at htorn
    cases htorn

theorem onDisk_zero (es : List LogEntry) : onDisk json es 0 = [] := by
  cases es with
  | nil => rfl
  | cons e es =>
    have hne := hjson.toString_ne_empty e
    simp [onDisk, hne]

/-- **The cut.** A truncated file consists of whole lines and, if the crash did not fall between two
lines, of the first bytes `p` of the entry that follows, `q` of which are missing besides the line
feed. -/
theorem exists_cut (es : List LogEntry) (n : Nat) :
    ∃ done p, (utf8 (file json es)).take n = utf8 (file json done) ++ p ∧
      ((p = [] ∧ done <+: es ∧ onDisk json es n = done) ∨
        ∃ e q, done ++ [e] <+: es ∧ p ≠ [] ∧ utf8 (json.toString e) = p ++ q ∧
          onDisk json es n = done ++ if q = [] then [e] else []) := by
  induction es generalizing n with
  | nil => exact ⟨[], [], by simp [file, utf8_eq_nil.mpr], Or.inl ⟨rfl, List.prefix_rfl, rfl⟩⟩
  | cons e es ih =>
    have hlen : (utf8 (json.toString e ++ "\n")).length = (utf8 (json.toString e)).length + 1 := by
      rw [utf8_append, List.length_append]
      rfl
    have hfile : utf8 (file json (e :: es)) =
        utf8 (json.toString e ++ "\n") ++ utf8 (file json es) := by simp [file]
    by_cases hline : (utf8 (json.toString e)).length + 1 ≤ n
    · -- the whole line is on disk: go on behind it
      have hdisk : (utf8 (json.toString e)).length ≤ n := by omega
      obtain ⟨done, p, htake, hp⟩ := ih (n - (utf8 (json.toString e ++ "\n")).length)
      refine ⟨e :: done, p, ?_, ?_⟩
      · rw [hfile, List.take_append, htake, List.take_of_length_le (by omega)]
        simp [file]
      · rcases hp with ⟨rfl, hdone, honDisk⟩ | ⟨e', q, hdone, hne, hq, honDisk⟩
        · left
          refine ⟨rfl, by simpa using hdone, ?_⟩
          rw [onDisk, if_pos hdisk, honDisk]
        · right
          refine ⟨e', q, by simpa using hdone, hne, hq, ?_⟩
          rw [onDisk, if_pos hdisk, honDisk]
          simp
    · have htake : (utf8 (file json (e :: es))).take n = (utf8 (json.toString e)).take n := by
        rw [hfile, utf8_append, List.append_assoc, List.take_append_of_le_length (by omega)]
      have hnil : utf8 (file json []) = [] := utf8_eq_nil.mpr rfl
      refine ⟨[], (utf8 (json.toString e)).take n, by rw [htake, hnil, List.nil_append], ?_⟩
      by_cases hn : n = 0
      · subst hn
        left
        exact ⟨List.take_zero, List.nil_prefix, onDisk_zero hjson _⟩
      · right
        have hne : utf8 (json.toString e) ≠ [] := by
          simpa using hjson.toString_ne_empty e
        refine ⟨e, (utf8 (json.toString e)).drop n, by simp, by simp [hn, hne],
          (List.take_append_drop n _).symm, ?_⟩
        by_cases hfull : (utf8 (json.toString e)).length ≤ n
        · have hzero : n - (utf8 (json.toString e ++ "\n")).length = 0 := by omega
          rw [onDisk, if_pos hfull, hzero, onDisk_zero hjson]
          simp [hfull]
        · rw [onDisk, if_neg hfull]
          simp [hfull]

/-- A recovery reads whole lines back and goes on behind them. -/
theorem filterMap_lines_file_append (es : List LogEntry) (tail : String) :
    (lines (file json es ++ tail)).filterMap json.fromStr =
      es ++ (lines tail).filterMap json.fromStr := by
  induction es with
  | nil => simp [file]
  | cons e es ih =>
    have hfile : file json (e :: es) ++ tail = json.toString e ++ "\n" ++ (file json es ++ tail) := by
      simp [file, String.append_assoc]
    rw [hfile, lines_append_newline (hjson.no_line_feed e) (hjson.no_carriage_return e),
      List.filterMap_cons, hjson.fromStr_toString, ih]
    rfl

/-- A torn entry has no line end in it. -/
theorem no_line_feed_of_torn {e : LogEntry} {torn missing : String}
    (h : json.toString e = torn ++ missing) : '\n' ∉ torn.toList ∧ '\r' ∉ torn.toList := by
  have hlf := hjson.no_line_feed e
  have hcr := hjson.no_carriage_return e
  rw [h, String.toList_append, List.mem_append, not_or] at hlf hcr
  exact ⟨hlf.1, hcr.1⟩

omit hjson in
/-- The log survives when the crash leaves a text and the lines of that text and of `further` are
the entries asked for. -/
theorem survives_utf8_iff {es further : List LogEntry} {n : Nat} {text : String}
    (h : crashed json es n = utf8 text) :
    Survives json es n further ↔
      (lines (text ++ file json further)).filterMap json.fromStr = onDisk json es n ++ further := by
  have hfirst := recoverFromFile_utf8 json text
  have hsecond := recoverFromFile_utf8 json (text ++ file json further)
  unfold Survives
  rw [h, hfirst]
  constructor
  · rintro ⟨first, second, hok, hok', hentries⟩
    cases hok
    rw [contents_logEntries json rfl, ← utf8_append, hsecond] at hok'
    cases hok'
    exact hentries
  · intro hentries
    refine ⟨_, ⟨_, some (utf8 (text ++ file json further))⟩, rfl, ?_, hentries⟩
    rw [contents_logEntries json rfl, ← utf8_append, hsecond]

/-- Between two lines the log survives whatever is logged. -/
theorem survives_of_line_end {es further done : List LogEntry} {n : Nat}
    (h : crashed json es n = utf8 (file json done)) (hdisk : onDisk json es n = done) :
    Survives json es n further := by
  rw [survives_utf8_iff h, hdisk, filterMap_lines_file_append hjson]
  have hfurther := filterMap_lines_file_append hjson further ""
  simpa using hfurther

/-- Nothing is logged on the torn line: it is read as what is left of it. -/
theorem survives_torn_nil {es done : List LogEntry} {n : Nat} {e : LogEntry}
    {torn missing : String} (h : crashed json es n = utf8 (file json done ++ torn))
    (htorn : torn ≠ "") (he : json.toString e = torn ++ missing)
    (hdisk : onDisk json es n = done ++ if missing = "" then [e] else []) :
    Survives json es n [] := by
  have hline := no_line_feed_of_torn hjson he
  rw [survives_utf8_iff h, hdisk, file, String.append_empty, filterMap_lines_file_append hjson,
    lines_of_no_newline hline.1 htorn]
  by_cases hmissing : missing = ""
  · have htext : torn = json.toString e := by simp [he, hmissing]
    simp [hmissing, htext, hjson.fromStr_toString]
  · simp [hmissing, hjson.fromStr_torn e torn missing he hmissing]

/-- The first entry logged on a torn line is lost, or the torn entry is. -/
theorem not_survives_torn_cons {es done : List LogEntry} {n : Nat} {e : LogEntry}
    {torn missing : String} (h : crashed json es n = utf8 (file json done ++ torn))
    (htorn : torn ≠ "") (he : json.toString e = torn ++ missing)
    (hdisk : onDisk json es n = done ++ if missing = "" then [e] else [])
    (f : LogEntry) (fs : List LogEntry) : ¬ Survives json es n (f :: fs) := by
  have hline := no_line_feed_of_torn hjson he
  have hlf : '\n' ∉ (torn ++ json.toString f).toList := by
    simp [hline.1, hjson.no_line_feed f]
  have hcr : '\r' ∉ (torn ++ json.toString f).toList := by
    simp [hline.2, hjson.no_carriage_return f]
  have htext : file json done ++ torn ++ file json (f :: fs) =
      file json done ++ (torn ++ json.toString f ++ "\n" ++ file json fs) := by
    simp [file, String.append_assoc]
  have hrest := filterMap_lines_file_append hjson fs ""
  rw [String.append_empty, lines_empty, List.filterMap_nil, List.append_nil] at hrest
  rw [survives_utf8_iff h, hdisk, htext, filterMap_lines_file_append hjson,
    lines_append_newline hlf hcr, List.filterMap_cons]
  intro heq
  have hlength := congrArg List.length heq
  by_cases hmissing : missing = ""
  · -- the torn entry was complete: two entries, one line
    cases hread : json.fromStr (torn ++ json.toString f) with
    | none =>
      simp [hread, hrest, hmissing] at hlength
      omega
    | some merged => simp [hread, hrest, hmissing] at hlength
  · have hnone := hjson.fromStr_torn_append e f torn missing he htorn hmissing
    simp [hnone, hrest, hmissing] at hlength

omit hjson in
/-- A crash inside a line is not a crash between two. -/
theorem not_atLineEnd_of_torn {es done : List LogEntry} {n : Nat} {e : LogEntry} {p q : Bytes}
    (h : crashed json es n = utf8 (file json done) ++ p) (hdone : done ++ [e] <+: es)
    (hp : p ≠ []) (hq : utf8 (json.toString e) = p ++ q) : ¬ AtLineEnd json es n := by
  rintro ⟨k, hk⟩
  rw [contents_withPath_logEntries, h] at hk
  have hlength := congrArg List.length hk
  have hpos := List.length_pos_iff.mpr hp
  obtain ⟨rest, rfl⟩ := hdone
  by_cases hlt : k ≤ done.length
  · have htake : (done ++ [e] ++ rest).take k = done.take k := by
      rw [List.append_assoc, List.take_append_of_le_length hlt]
    have hsplit := file_append json (done.take k) (done.drop k)
    rw [List.take_append_drop] at hsplit
    rw [htake] at hlength
    simp only [hsplit, utf8_append, List.length_append] at hlength
    omega
  · have htake : (done ++ [e] ++ rest).take k = done ++ [e] ++ rest.take (k - (done.length + 1)) := by
      rw [List.take_append, List.take_of_length_le (by simp; omega)]
      simp
    rw [htake] at hlength
    simp only [file_append, file, utf8_append, List.length_append, hq] at hlength
    have hfeed : (utf8 "\n").length = 1 := rfl
    omega

end Recovery

/-- **When the decision log survives a torn tail.** For every sequence of entries, every number of
bytes a crash leaves of the file, and every sequence of entries logged after the first recovery: the
second recovery finds the entries on disk at the crash followed by those logged after it exactly
when the crash fell between two lines, or nothing is logged after it and the bytes left are text. -/
theorem survives_iff (hjson : json.Lawful) (es : List LogEntry) (n : Nat)
    (further : List LogEntry) :
    Survives json es n further ↔
      AtLineEnd json es n ∨ (further = [] ∧ (readToString (crashed json es n)).isSome) := by
  obtain ⟨done, p, htake, hcut⟩ := exists_cut hjson es n
  have hcrashed : crashed json es n = utf8 (file json done) ++ p := by
    rw [crashed, contents_withPath_logEntries, htake]
  rcases hcut with ⟨rfl, hdone, hdisk⟩ | ⟨e, q, hdone, hp, hq, hdisk⟩
  · rw [List.append_nil] at hcrashed
    have hend : AtLineEnd json es n := by
      refine ⟨done.length, ?_⟩
      rw [contents_withPath_logEntries, hcrashed, ← List.prefix_iff_eq_take.mp hdone]
    exact iff_of_true (survives_of_line_end hjson hcrashed hdisk) (Or.inl hend)
  · have hend := not_atLineEnd_of_torn hcrashed hdone hp hq
    cases htext : readToString (crashed json es n) with
    | none =>
      -- the crash cut a character in two: the first recovery fails
      refine iff_of_false ?_ (by simp [hend])
      rintro ⟨first, second, hfirst, -, -⟩
      simp [recoverFromFile, htext] at hfirst
    | some text =>
      have hutf8 := utf8_of_readToString htext
      obtain ⟨torn, rfl, rfl⟩ := exists_append_of_utf8_eq (hcrashed.symm.trans hutf8.symm)
      obtain ⟨missing, he, rfl⟩ := exists_append_of_utf8_eq hq.symm
      have htorn : torn ≠ "" := by simpa using hp
      simp only [utf8_eq_nil] at hdisk
      rw [utf8_append] at hutf8
      rw [← utf8_append] at hcrashed
      cases further with
      | nil => exact iff_of_true (survives_torn_nil hjson hcrashed htorn he hdisk) (by simp)
      | cons f fs =>
        exact iff_of_false (not_survives_torn_cons hjson hcrashed htorn he hdisk f fs)
          (by simp [hend])

/-! ## A torn commit -/

def prepared : LogEntry := .prepare ⟨"dtx-1"⟩ [⟨"p1"⟩, ⟨"p2"⟩]

def decided : LogEntry := .commit ⟨"dtx-1"⟩

/-- A crash that keeps the prepare record and loses the whole commit record. -/
theorem survives_lost_commit :
    serdeJson.Lawful ∧ Survives serdeJson [prepared, decided] 57 [.abort ⟨"dtx-1"⟩] :=
  ⟨serdeJson_lawful,
    (survives_iff serdeJson_lawful [prepared, decided] 57 [.abort ⟨"dtx-1"⟩]).mpr
      (Or.inl ⟨1, by decide⟩)⟩

/-- **The first decision after a recovery is lost.** A crash tears the commit record after ten
bytes. The transaction is in doubt, the coordinator aborts it and logs that; the next recovery does
not find the abort. -/
theorem not_survives_torn_commit :
    serdeJson.Lawful ∧ ¬ Survives serdeJson [prepared, decided] 67 [.abort ⟨"dtx-1"⟩] := by
  have hcrashed : crashed serdeJson [prepared, decided] 67 =
      utf8 (file serdeJson [prepared] ++ String.ofList (decided.toJson.take 10)) := by
    decide
  have hjson : serdeJson.toString decided =
      String.ofList (decided.toJson.take 10) ++ String.ofList (decided.toJson.drop 10) := by
    decide
  exact ⟨serdeJson_lawful,
    not_survives_torn_cons serdeJson_lawful hcrashed (by decide) hjson (by decide) _ []⟩

end Synaptica.Cluster
