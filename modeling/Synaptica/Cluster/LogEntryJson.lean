import Synaptica.Cluster.DistributedTx

/-!
# Log entries as JSON

The decision log is written with `serde_json`, which is a parameter of the development: `SerdeJson`
with the properties `SerdeJson.Lawful` the log relies on. `serdeJson` is the format itself for
`LogEntry`, an enum tagged by the name of its variant, and shows that the properties hold together.

A scanner that counts brackets outside strings, `Scan.run`, tells a whole entry from a torn one: it
is back at depth zero after a whole entry and never before.
-/

namespace Synaptica.Cluster

/-- `serde_json` for `LogEntry`. -/
structure SerdeJson where
  toString : LogEntry → String
  fromStr : String → Option LogEntry

/-- What the log relies on: an entry is written on one line, it is read back, and no torn entry is
read as one, neither alone nor with another entry behind it. -/
structure SerdeJson.Lawful (json : SerdeJson) : Prop where
  no_line_feed : ∀ e, '\n' ∉ (json.toString e).toList
  no_carriage_return : ∀ e, '\r' ∉ (json.toString e).toList
  fromStr_toString : ∀ e, json.fromStr (json.toString e) = some e
  fromStr_torn : ∀ e (torn missing : String), json.toString e = torn ++ missing → missing ≠ "" →
    json.fromStr torn = none
  fromStr_torn_append : ∀ e e' (torn missing : String), json.toString e = torn ++ missing →
    torn ≠ "" → missing ≠ "" → json.fromStr (torn ++ json.toString e') = none

/-! ## The format -/

/-- A hexadecimal digit in lower case. -/
def hexDigit (n : Nat) : Char := "0123456789abcdef".toList.getD n '0'

/-- A character inside a JSON string. -/
def escapeChar (c : Char) : List Char :=
  if c = '"' then ['\\', '"']
  else if c = '\\' then ['\\', '\\']
  else if c = '\x08' then ['\\', 'b']
  else if c = '\t' then ['\\', 't']
  else if c = '\n' then ['\\', 'n']
  else if c = '\x0c' then ['\\', 'f']
  else if c = '\r' then ['\\', 'r']
  else if c.toNat < 32 then
    ['\\', 'u', '0', '0', hexDigit (c.toNat / 16), hexDigit (c.toNat % 16)]
  else [c]

def escape (s : String) : List Char := s.toList.flatMap escapeChar

def quote (s : String) : List Char := '"' :: escape s ++ ['"']

def commaSeparated : List (List Char) → List Char
  | [] => []
  | [item] => item
  | item :: item' :: items => item ++ ',' :: commaSeparated (item' :: items)

def array (items : List (List Char)) : List Char := '[' :: commaSeparated items ++ [']']

def object (fields : List (String × List Char)) : List Char :=
  '\x7b' :: commaSeparated (fields.map fun f => quote f.1 ++ ':' :: f.2) ++ ['\x7d']

def LogEntry.variant : LogEntry → String
  | .prepare _ _ => "Prepare"
  | .commit _ => "Commit"
  | .abort _ => "Abort"

def LogEntry.fields : LogEntry → List (String × List Char)
  | .prepare txId participants =>
    [("tx_id", quote txId.value),
      ("participants", array (participants.map fun p => quote p.value))]
  | .commit txId => [("tx_id", quote txId.value)]
  | .abort txId => [("tx_id", quote txId.value)]

/-- `serde_json::to_string`, for a log entry. -/
def LogEntry.toJson (e : LogEntry) : List Char := object [(e.variant, object e.fields)]

example : String.ofList (LogEntry.prepare ⟨"dtx-1"⟩ [⟨"p1"⟩, ⟨"p\"2"⟩]).toJson =
    "\x7b\"Prepare\":\x7b\"tx_id\":\"dtx-1\",\"participants\":[\"p1\",\"p\\\"2\"]\x7d\x7d" := by
  decide

/-! ## The scanner -/

inductive Mode where
  | out
  | str
  | esc
  deriving DecidableEq, Repr

/-- How many brackets are open and whether a string is. -/
structure Scan where
  depth : Nat
  mode : Mode
  deriving DecidableEq, Repr

/-- The scanner fails on a character that no JSON without numbers and literals has there. -/
def Scan.step : Scan → Char → Option Scan
  | ⟨depth, .out⟩, c =>
    if c = '\x7b' ∨ c = '[' then some ⟨depth + 1, .out⟩
    else if c = '\x7d' ∨ c = ']' then if depth = 0 then none else some ⟨depth - 1, .out⟩
    else if c = ':' ∨ c = ',' then some ⟨depth, .out⟩
    else if c = '"' then some ⟨depth, .str⟩
    else none
  | ⟨depth, .str⟩, c =>
    if c = '"' then some ⟨depth, .out⟩
    else if c = '\\' then some ⟨depth, .esc⟩
    else some ⟨depth, .str⟩
  | ⟨depth, .esc⟩, c => if c ∈ ['"', '\\', 'b', 't', 'n', 'f', 'r', 'u'] then some ⟨depth, .str⟩ else none

def Scan.run (s : Scan) (cs : List Char) : Option Scan := cs.foldlM Scan.step s

@[simp] theorem Scan.run_nil (s : Scan) : s.run [] = some s := rfl

theorem Scan.run_cons (s : Scan) (c : Char) (cs : List Char) :
    s.run (c :: cs) = (s.step c).bind fun s' => s'.run cs := by
  simp [run, List.foldlM_cons, bind]

theorem Scan.run_append (s : Scan) (cs ds : List Char) :
    s.run (cs ++ ds) = (s.run cs).bind fun s' => s'.run ds := by
  simp [run, List.foldlM_append, bind]

/-- The scanner works the same inside one more bracket. -/
def Scan.deeper (s : Scan) : Scan := ⟨s.depth + 1, s.mode⟩

theorem Scan.step_deeper {s s' : Scan} {c : Char} (h : s.step c = some s') :
    s.deeper.step c = some s'.deeper := by
  obtain ⟨depth, mode⟩ := s
  cases mode <;> grind [Scan.step, Scan.deeper]

theorem Scan.run_deeper {s s' : Scan} {cs : List Char} (h : s.run cs = some s') :
    s.deeper.run cs = some s'.deeper := by
  induction cs generalizing s with
  | nil =>
    cases h
    rfl
  | cons c cs ih =>
    rw [run_cons] at h ⊢
    obtain ⟨t, hstep, hrun⟩ := Option.bind_eq_some_iff.mp h
    rw [step_deeper hstep]
    exact ih hrun

/-- A text that opens and closes its brackets and strings. -/
def Balanced (cs : List Char) : Prop := ∀ depth, Scan.run ⟨depth, .out⟩ cs = some ⟨depth, .out⟩

theorem Balanced.append {cs ds : List Char} (hcs : Balanced cs) (hds : Balanced ds) :
    Balanced (cs ++ ds) := by
  intro depth
  rw [Scan.run_append, hcs depth]
  exact hds depth

theorem hexDigit_ne (n : Nat) : hexDigit n ≠ '"' ∧ hexDigit n ≠ '\\' := by
  by_cases h : n < 16
  · have hall : ∀ n < 16, hexDigit n ≠ '"' ∧ hexDigit n ≠ '\\' := by decide
    exact hall n h
  · have hlen : "0123456789abcdef".toList.length ≤ n := by
      show 16 ≤ n
      omega
    have hdefault : hexDigit n = '0' := by
      unfold hexDigit
      rw [List.getD_eq_default _ _ hlen]
    rw [hdefault]
    decide

theorem step_plain (depth : Nat) {c : Char} (h : c ≠ '"' ∧ c ≠ '\\') :
    Scan.step ⟨depth, .str⟩ c = some ⟨depth, .str⟩ := by
  simp [Scan.step, h.1, h.2]

theorem run_escaped (depth : Nat) {c : Char} (h : c ∈ ['"', '\\', 'b', 't', 'n', 'f', 'r', 'u'])
    (rest : List Char) :
    Scan.run ⟨depth, .str⟩ ('\\' :: c :: rest) = Scan.run ⟨depth, .str⟩ rest := by
  have hslash : Scan.step ⟨depth, .str⟩ '\\' = some ⟨depth, .esc⟩ := by simp [Scan.step]
  have hc : Scan.step ⟨depth, .esc⟩ c = some ⟨depth, .str⟩ := if_pos h
  rw [Scan.run_cons, hslash, Option.bind_some, Scan.run_cons, hc, Option.bind_some]

/-- An escaped character does not end the string. -/
theorem run_escapeChar (depth : Nat) (c : Char) :
    Scan.run ⟨depth, .str⟩ (escapeChar c) = some ⟨depth, .str⟩ := by
  unfold escapeChar
  split_ifs with hquote hslash
  next => exact run_escaped depth (by decide) []
  next => exact run_escaped depth (by decide) []
  next => exact run_escaped depth (by decide) []
  next => exact run_escaped depth (by decide) []
  next => exact run_escaped depth (by decide) []
  next => exact run_escaped depth (by decide) []
  next => exact run_escaped depth (by decide) []
  next =>
    have hzero : '0' ≠ '"' ∧ '0' ≠ '\\' := by decide
    rw [run_escaped depth (by decide), Scan.run_cons, step_plain depth hzero, Option.bind_some,
      Scan.run_cons, step_plain depth hzero, Option.bind_some, Scan.run_cons,
      step_plain depth (hexDigit_ne _), Option.bind_some, Scan.run_cons,
      step_plain depth (hexDigit_ne _)]
    rfl
  next =>
    rw [Scan.run_cons, step_plain depth ⟨hquote, hslash⟩]
    rfl

theorem run_escape (depth : Nat) (s : String) :
    Scan.run ⟨depth, .str⟩ (escape s) = some ⟨depth, .str⟩ := by
  unfold escape
  induction s.toList with
  | nil => rfl
  | cons c cs ih =>
    rw [List.flatMap_cons, Scan.run_append, run_escapeChar]
    exact ih

theorem balanced_quote (s : String) : Balanced (quote s) := by
  intro depth
  have hopen : Scan.step ⟨depth, .out⟩ '"' = some ⟨depth, .str⟩ := by simp [Scan.step]
  have hclose : Scan.run ⟨depth, .str⟩ ['"'] = some ⟨depth, .out⟩ := by
    simp [Scan.run_cons, Scan.step]
  rw [quote, List.cons_append, Scan.run_cons, hopen, Option.bind_some, Scan.run_append,
    run_escape, Option.bind_some, hclose]

theorem balanced_commaSeparated {items : List (List Char)} (h : ∀ item ∈ items, Balanced item) :
    Balanced (commaSeparated items) := by
  induction items with
  | nil => exact fun depth => rfl
  | cons item items ih =>
    have hitem := h item List.mem_cons_self
    have hitems := ih fun i hi => h i (List.mem_cons_of_mem _ hi)
    cases items with
    | nil => exact hitem
    | cons item' items =>
      have hcomma : Balanced [','] := fun depth => by simp [Scan.run_cons, Scan.step]
      exact hitem.append (hcomma.append hitems)

/-- Brackets around a balanced text. -/
theorem run_bracketed {open' close : Char} {cs : List Char}
    (hopen : open' = '\x7b' ∨ open' = '[') (hclose : close = '\x7d' ∨ close = ']')
    (h : Balanced cs) : Balanced (open' :: cs ++ [close]) := by
  intro depth
  have hstep : Scan.step ⟨depth, .out⟩ open' = some ⟨depth + 1, .out⟩ := by
    simp [Scan.step, hopen]
  have hend : Scan.run ⟨depth + 1, .out⟩ [close] = some ⟨depth, .out⟩ := by
    rcases hclose with rfl | rfl <;> simp [Scan.run_cons, Scan.step]
  rw [List.cons_append, Scan.run_cons, hstep, Option.bind_some, Scan.run_append, h (depth + 1),
    Option.bind_some, hend]

theorem balanced_array {items : List (List Char)} (h : ∀ item ∈ items, Balanced item) :
    Balanced (array items) :=
  run_bracketed (Or.inr rfl) (Or.inr rfl) (balanced_commaSeparated h)

/-- The members of an object, without its brackets. -/
theorem balanced_members {fields : List (String × List Char)}
    (h : ∀ f ∈ fields, Balanced f.2) :
    Balanced (commaSeparated (fields.map fun f => quote f.1 ++ ':' :: f.2)) := by
  apply balanced_commaSeparated
  intro item hitem
  obtain ⟨f, hf, rfl⟩ := List.mem_map.mp hitem
  have hcolon : Balanced [':'] := fun depth => by simp [Scan.run_cons, Scan.step]
  exact (balanced_quote f.1).append (hcolon.append (h f hf))

theorem balanced_object {fields : List (String × List Char)} (h : ∀ f ∈ fields, Balanced f.2) :
    Balanced (object fields) :=
  run_bracketed (Or.inl rfl) (Or.inl rfl) (balanced_members h)

theorem balanced_fields (e : LogEntry) : ∀ f ∈ e.fields, Balanced f.2 := by
  cases e with
  | prepare tx pids =>
    have harray : Balanced (array (pids.map fun p => quote p.value)) := by
      apply balanced_array
      intro item hitem
      obtain ⟨p, -, rfl⟩ := List.mem_map.mp hitem
      exact balanced_quote p.value
    simp [LogEntry.fields, balanced_quote, harray]
  | commit tx => simp [LogEntry.fields, balanced_quote]
  | abort tx => simp [LogEntry.fields, balanced_quote]

/-- What stands between the outer brackets of an entry. -/
def LogEntry.body (e : LogEntry) : List Char := quote e.variant ++ ':' :: object e.fields

theorem toJson_eq (e : LogEntry) : e.toJson = '\x7b' :: e.body ++ ['\x7d'] := rfl

theorem balanced_body (e : LogEntry) : Balanced e.body := by
  have hcolon : Balanced [':'] := fun depth => by simp [Scan.run_cons, Scan.step]
  exact (balanced_quote _).append (hcolon.append (balanced_object (balanced_fields e)))

/-- An entry begins with the name of its variant. -/
theorem exists_variant (e : LogEntry) :
    ∃ letter rest, e.body = '"' :: letter :: rest ∧ letter ∈ ['P', 'C', 'A'] := by
  have hprepare : quote "Prepare" = '"' :: 'P' :: "repare\"".toList := by decide
  have hcommit : quote "Commit" = '"' :: 'C' :: "ommit\"".toList := by decide
  have habort : quote "Abort" = '"' :: 'A' :: "bort\"".toList := by decide
  unfold LogEntry.body LogEntry.variant
  cases e with
  | prepare tx pids => exact ⟨'P', _, by rw [hprepare]; rfl, by decide⟩
  | commit tx => exact ⟨'C', _, by rw [hcommit]; rfl, by decide⟩
  | abort tx => exact ⟨'A', _, by rw [habort]; rfl, by decide⟩

theorem run_toJson (e : LogEntry) (depth : Nat) :
    Scan.run ⟨depth, .out⟩ e.toJson = some ⟨depth, .out⟩ :=
  run_bracketed (Or.inl rfl) (Or.inl rfl) (balanced_body e) depth

/-- **A torn entry leaves a bracket open.** -/
theorem run_torn {e : LogEntry} {torn missing : List Char} (h : e.toJson = torn ++ missing)
    (htorn : torn ≠ []) (hmissing : missing ≠ []) :
    ∃ s : Scan, Scan.run ⟨0, .out⟩ torn = some s.deeper := by
  obtain ⟨c, torn, rfl⟩ := List.exists_cons_of_ne_nil htorn
  obtain ⟨missing, c', rfl⟩ : ∃ init last, missing = init ++ [last] :=
    ⟨_, _, (List.dropLast_append_getLast hmissing).symm⟩
  rw [toJson_eq, ← List.append_assoc] at h
  obtain ⟨hinit, -⟩ := List.append_inj' h rfl
  rw [List.cons_append] at hinit
  obtain ⟨rfl, hbody⟩ := List.cons_eq_cons.mp hinit
  have hrun := balanced_body e 0
  rw [hbody, Scan.run_append] at hrun
  obtain ⟨s, hs, -⟩ := Option.bind_eq_some_iff.mp hrun
  refine ⟨s, ?_⟩
  have hopen : Scan.step ⟨0, .out⟩ '\x7b' = some (Scan.deeper ⟨0, .out⟩) := by
    simp [Scan.step, Scan.deeper]
  rw [Scan.run_cons, hopen, Option.bind_some, Scan.run_deeper hs]

/-- A torn entry is not an entry. -/
theorem torn_ne_toJson {e e' : LogEntry} {torn missing : List Char}
    (h : e.toJson = torn ++ missing) (htorn : torn ≠ []) (hmissing : missing ≠ []) :
    torn ≠ e'.toJson := by
  rintro rfl
  obtain ⟨s, hs⟩ := run_torn h htorn hmissing
  rw [run_toJson] at hs
  simp [Scan.deeper] at hs

/-- A torn entry with another entry behind it is not an entry. -/
theorem torn_append_ne_toJson {e e' e'' : LogEntry} {torn missing : List Char}
    (h : e.toJson = torn ++ missing) (htorn : torn ≠ []) (hmissing : missing ≠ []) :
    torn ++ e'.toJson ≠ e''.toJson := by
  intro heq
  obtain ⟨⟨depth, mode⟩, hs⟩ := run_torn h htorn hmissing
  have hrun := run_toJson e'' 0
  rw [← heq, Scan.run_append, hs, Option.bind_some, Scan.deeper] at hrun
  obtain ⟨letter, rest, hbody, hletter⟩ := exists_variant e'
  cases mode with
  | out =>
    -- the second entry closes its own brackets only
    rw [run_toJson] at hrun
    simp at hrun
  | str =>
    -- its first quote closes the string, and the name stands outside
    rw [toJson_eq, hbody] at hrun
    simp only [List.mem_cons, List.not_mem_nil, or_false] at hletter
    rcases hletter with rfl | rfl | rfl <;> simp [Scan.run_cons, Scan.step] at hrun
  | esc =>
    rw [toJson_eq] at hrun
    simp [Scan.run_cons, Scan.step] at hrun

/-! ## Reading an entry back -/

/-- The characters that a string does not hold as they are. -/
def escapedCodes : List Nat := List.range 32 ++ [34, 92]

/-- A character stands for itself or begins with a backslash. -/
theorem escapeChar_cases (c : Char) :
    (escapeChar c = [c] ∧ c ≠ '"' ∧ c ≠ '\\' ∧ 32 ≤ c.toNat) ∨
      ∃ n ∈ escapedCodes, c = Char.ofNat n := by
  by_cases hcode : c.toNat ∈ escapedCodes
  · exact Or.inr ⟨c.toNat, hcode, (Char.ofNat_toNat c).symm⟩
  · left
    simp only [escapedCodes, List.mem_append, List.mem_range, List.mem_cons, List.not_mem_nil,
      or_false, not_or] at hcode
    obtain ⟨hlow, hquote, hslash⟩ := hcode
    have hne : ∀ d : Char, d.toNat ∈ escapedCodes → c ≠ d := by
      rintro d hd rfl
      simp [escapedCodes] at hd
      omega
    refine ⟨?_, hne '"' (by decide), hne '\\' (by decide), by omega⟩
    unfold escapeChar
    rw [if_neg (hne _ (by decide)), if_neg (hne _ (by decide)), if_neg (hne _ (by decide)),
      if_neg (hne _ (by decide)), if_neg (hne _ (by decide)), if_neg (hne _ (by decide)),
      if_neg (hne _ (by decide)), if_neg hlow]

/-- The escapes are two or more visible characters that begin with a backslash. -/
theorem escapedCodes_spec : ∀ n ∈ escapedCodes,
    (escapeChar (Char.ofNat n)).head? = some '\\' ∧ 2 ≤ (escapeChar (Char.ofNat n)).length ∧
      (escapeChar (Char.ofNat n)).all fun c => 32 ≤ c.toNat := by
  decide

theorem escapedCodes_injective : ∀ n ∈ escapedCodes, ∀ m ∈ escapedCodes,
    escapeChar (Char.ofNat n) <+: escapeChar (Char.ofNat m) → n = m := by
  decide

/-- No escape continues another. -/
theorem eq_of_prefix_escapeChar {c d : Char} (h : escapeChar c <+: escapeChar d) : c = d := by
  rcases escapeChar_cases c with ⟨hc, -, hslash, -⟩ | ⟨n, hn, rfl⟩
  · rcases escapeChar_cases d with ⟨hd, -, -, -⟩ | ⟨m, hm, rfl⟩
    · rw [hc, hd] at h
      simpa using h
    · have hhead := (escapedCodes_spec m hm).1
      rw [hc] at h
      obtain ⟨rest, hrest⟩ := h
      rw [← hrest] at hhead
      exact absurd (by simpa using hhead) hslash
  · rcases escapeChar_cases d with ⟨hd, -, -, -⟩ | ⟨m, hm, rfl⟩
    · have hlength := (escapedCodes_spec n hn).2.1
      have hle := h.length_le
      rw [hd, List.length_singleton] at hle
      omega
    · rw [escapedCodes_injective n hn m hm h]

theorem escapeChar_append_inj {c d : Char} {cs ds : List Char}
    (h : escapeChar c ++ cs = escapeChar d ++ ds) : c = d ∧ cs = ds := by
  have hcd : c = d := by
    have hc : escapeChar c <+: escapeChar d ++ ds := ⟨cs, h⟩
    have hd : escapeChar d <+: escapeChar d ++ ds := List.prefix_append _ _
    rcases List.prefix_or_prefix_of_prefix hc hd with hle | hle
    · exact eq_of_prefix_escapeChar hle
    · exact (eq_of_prefix_escapeChar hle).symm
  subst hcd
  exact ⟨rfl, List.append_cancel_left h⟩

/-- No escape begins with a quote. -/
theorem escapeChar_append_ne_quote (c : Char) (cs ds : List Char) :
    escapeChar c ++ cs ≠ '"' :: ds := by
  intro h
  rcases escapeChar_cases c with ⟨hc, hquote, -, -⟩ | ⟨n, hn, rfl⟩
  · rw [hc] at h
    exact hquote (List.cons_eq_cons.mp h).1
  · obtain ⟨hhead, hlength, -⟩ := escapedCodes_spec n hn
    cases hchars : escapeChar (Char.ofNat n) with
    | nil => simp [hchars] at hlength
    | cons c cs' => simp_all

theorem escape_append_inj {cs ds rest rest' : List Char}
    (h : cs.flatMap escapeChar ++ '"' :: rest = ds.flatMap escapeChar ++ '"' :: rest') :
    cs = ds ∧ rest = rest' := by
  induction cs generalizing ds with
  | nil =>
    cases ds with
    | nil => simpa using h
    | cons d ds =>
      rw [List.flatMap_cons, List.append_assoc] at h
      exact absurd h.symm (escapeChar_append_ne_quote _ _ _)
  | cons c cs ih =>
    rw [List.flatMap_cons, List.append_assoc] at h
    cases ds with
    | nil => exact absurd h (escapeChar_append_ne_quote _ _ _)
    | cons d ds =>
      rw [List.flatMap_cons, List.append_assoc] at h
      obtain ⟨rfl, htail⟩ := escapeChar_append_inj h
      obtain ⟨rfl, hrest⟩ := ih htail
      exact ⟨rfl, hrest⟩

theorem quote_append_inj {s t : String} {rest rest' : List Char}
    (h : quote s ++ rest = quote t ++ rest') : s = t ∧ rest = rest' := by
  have hescape : escape s ++ '"' :: rest = escape t ++ '"' :: rest' := by
    simpa [quote] using h
  obtain ⟨hchars, hrest⟩ := escape_append_inj hescape
  exact ⟨String.toList_inj.mp hchars, hrest⟩

theorem participants_append_inj {ps qs : List PartitionId} {rest rest' : List Char}
    (h : commaSeparated (ps.map fun p => quote p.value) ++ ']' :: rest =
      commaSeparated (qs.map fun q => quote q.value) ++ ']' :: rest') : ps = qs := by
  induction ps generalizing qs with
  | nil =>
    match qs with
    | [] => rfl
    | [q] => simp [commaSeparated, quote] at h
    | q :: q' :: qs => simp [commaSeparated, quote] at h
  | cons p ps ih =>
    match ps, qs with
    | [], [] => simp [commaSeparated, quote] at h
    | p' :: ps, [] => simp [commaSeparated, quote] at h
    | [], [q] =>
      obtain ⟨hvalue, -⟩ := quote_append_inj h
      rw [show p = q from congrArg PartitionId.mk hvalue]
    | [], q :: q' :: qs =>
      simp only [List.map_cons, List.map_nil, commaSeparated, List.append_assoc,
        List.cons_append] at h
      obtain ⟨-, hrest⟩ := quote_append_inj h
      simp at hrest
    | p' :: ps, [q] =>
      simp only [List.map_cons, List.map_nil, commaSeparated, List.append_assoc,
        List.cons_append] at h
      obtain ⟨-, hrest⟩ := quote_append_inj h
      simp at hrest
    | p' :: ps, q :: q' :: qs =>
      simp only [List.map_cons, commaSeparated, List.append_assoc, List.cons_append] at h
      obtain ⟨hvalue, hrest⟩ := quote_append_inj h
      have htail : p' :: ps = q' :: qs := ih (by simpa using hrest)
      rw [htail, show p = q from congrArg PartitionId.mk hvalue]

theorem object_tx_id_append_inj {s t : String} {rest rest' : List Char}
    (h : quote "tx_id" ++ ':' :: (quote s ++ rest) = quote "tx_id" ++ ':' :: (quote t ++ rest')) :
    s = t ∧ rest = rest' := by
  have hvalue := (List.cons_eq_cons.mp (List.append_cancel_left h)).2
  exact quote_append_inj hvalue

/-- **Different entries are written differently.** -/
theorem toJson_injective : Function.Injective LogEntry.toJson := by
  intro e e' h
  have hbody : e.body = e'.body := by
    rw [toJson_eq, toJson_eq] at h
    exact (List.cons_eq_cons.mp (List.append_inj' h rfl).1).2
  obtain ⟨hvariant, hrest⟩ := quote_append_inj hbody
  have hfields : object e.fields = object e'.fields := (List.cons_eq_cons.mp hrest).2
  cases e with
  | prepare tx pids =>
    cases e' with
    | prepare tx' pids' =>
      simp only [LogEntry.fields, object, List.map_cons, List.map_nil, commaSeparated, array,
        List.append_assoc, List.cons_append] at hfields
      obtain ⟨htx, hpids⟩ := object_tx_id_append_inj (List.cons_eq_cons.mp hfields).2
      obtain ⟨-, hpids⟩ := quote_append_inj (List.cons_eq_cons.mp hpids).2
      have hpids := (List.cons_eq_cons.mp (List.cons_eq_cons.mp hpids).2).2
      rw [show tx = tx' from congrArg DistributedTxId.mk htx, participants_append_inj hpids]
    | commit tx' => simp [LogEntry.variant] at hvariant
    | abort tx' => simp [LogEntry.variant] at hvariant
  | commit tx =>
    cases e' with
    | commit tx' =>
      simp only [LogEntry.fields, object, List.map_cons, List.map_nil, commaSeparated,
        List.append_assoc, List.cons_append] at hfields
      obtain ⟨htx, -⟩ := object_tx_id_append_inj (List.cons_eq_cons.mp hfields).2
      rw [show tx = tx' from congrArg DistributedTxId.mk htx]
    | prepare tx' pids' => simp [LogEntry.variant] at hvariant
    | abort tx' => simp [LogEntry.variant] at hvariant
  | abort tx =>
    cases e' with
    | abort tx' =>
      simp only [LogEntry.fields, object, List.map_cons, List.map_nil, commaSeparated,
        List.append_assoc, List.cons_append] at hfields
      obtain ⟨htx, -⟩ := object_tx_id_append_inj (List.cons_eq_cons.mp hfields).2
      rw [show tx = tx' from congrArg DistributedTxId.mk htx]
    | prepare tx' pids' => simp [LogEntry.variant] at hvariant
    | commit tx' => simp [LogEntry.variant] at hvariant

/-! ## One line -/

/-- A text without control characters. -/
def Visible (cs : List Char) : Prop := ∀ c ∈ cs, 32 ≤ c.toNat

theorem visible_append {cs ds : List Char} : Visible (cs ++ ds) ↔ Visible cs ∧ Visible ds := by
  simp [Visible, or_imp, forall_and]

theorem visible_cons {c : Char} {cs : List Char} :
    Visible (c :: cs) ↔ 32 ≤ c.toNat ∧ Visible cs := by
  simp [Visible]

theorem visible_quote (s : String) : Visible (quote s) := by
  have hescape : Visible (escape s) := by
    intro c hc
    obtain ⟨d, -, hd⟩ := List.mem_flatMap.mp hc
    rcases escapeChar_cases d with ⟨hplain, -, -, hlow⟩ | ⟨n, hn, rfl⟩
    · rw [hplain, List.mem_singleton] at hd
      rwa [hd]
    · simpa using List.all_eq_true.mp (escapedCodes_spec n hn).2.2 c hd
  have hquote : Visible ['"'] := by simp [Visible]
  exact visible_append.mpr ⟨visible_cons.mpr ⟨by decide, hescape⟩, hquote⟩

theorem visible_commaSeparated {items : List (List Char)} (h : ∀ item ∈ items, Visible item) :
    Visible (commaSeparated items) := by
  induction items with
  | nil => simp [commaSeparated, Visible]
  | cons item items ih =>
    have hitem := h item List.mem_cons_self
    have hitems := ih fun i hi => h i (List.mem_cons_of_mem _ hi)
    cases items with
    | nil => exact hitem
    | cons item' items => exact visible_append.mpr ⟨hitem, visible_cons.mpr ⟨by decide, hitems⟩⟩

theorem visible_object {fields : List (String × List Char)} (h : ∀ f ∈ fields, Visible f.2) :
    Visible (object fields) := by
  have hmembers : Visible (commaSeparated (fields.map fun f => quote f.1 ++ ':' :: f.2)) := by
    apply visible_commaSeparated
    intro item hitem
    obtain ⟨f, hf, rfl⟩ := List.mem_map.mp hitem
    exact visible_append.mpr ⟨visible_quote f.1, visible_cons.mpr ⟨by decide, h f hf⟩⟩
  exact visible_append.mpr ⟨visible_cons.mpr ⟨by decide, hmembers⟩, by simp [Visible]⟩

theorem visible_toJson (e : LogEntry) : Visible e.toJson := by
  have hfields : ∀ f ∈ e.fields, Visible f.2 := by
    cases e with
    | prepare tx pids =>
      have hpids : Visible (commaSeparated (pids.map fun p => quote p.value)) := by
        apply visible_commaSeparated
        intro item hitem
        obtain ⟨p, -, rfl⟩ := List.mem_map.mp hitem
        exact visible_quote p.value
      have harray : Visible (array (pids.map fun p => quote p.value)) :=
        visible_append.mpr ⟨visible_cons.mpr ⟨by decide, hpids⟩, by simp [Visible]⟩
      simp [LogEntry.fields, visible_quote, harray]
    | commit tx => simp [LogEntry.fields, visible_quote]
    | abort tx => simp [LogEntry.fields, visible_quote]
  apply visible_object
  simpa using visible_object hfields

/-! ## The parameter -/

open Classical in
/-- `serde_json` as far as the log can tell: what it writes, read back. -/
noncomputable def serdeJson : SerdeJson where
  toString e := String.ofList e.toJson
  fromStr s := if h : ∃ e : LogEntry, e.toJson = s.toList then some h.choose else none

theorem serdeJson_fromStr_eq_none {s : String} (h : ∀ e : LogEntry, s.toList ≠ e.toJson) :
    serdeJson.fromStr s = none := by
  apply dif_neg
  rintro ⟨e, he⟩
  exact h e he.symm

theorem serdeJson_lawful : serdeJson.Lawful where
  no_line_feed e hmem := absurd (visible_toJson e '\n' (by simpa [serdeJson] using hmem)) (by decide)
  no_carriage_return e hmem :=
    absurd (visible_toJson e '\r' (by simpa [serdeJson] using hmem)) (by decide)
  fromStr_toString e := by
    have hex : ∃ e' : LogEntry, e'.toJson = (serdeJson.toString e).toList :=
      ⟨e, by simp [serdeJson]⟩
    have hchoose : hex.choose = e := by
      apply toJson_injective
      rw [hex.choose_spec]
      simp [serdeJson]
    have hread : serdeJson.fromStr (serdeJson.toString e) = some hex.choose := dif_pos hex
    rw [hread, hchoose]
  fromStr_torn e torn missing h hmissing := by
    have hjson : e.toJson = torn.toList ++ missing.toList := by
      simpa [serdeJson] using congrArg String.toList h
    have hmissing : missing.toList ≠ [] := by simpa using hmissing
    apply serdeJson_fromStr_eq_none
    intro e'
    by_cases htorn : torn.toList = []
    · rw [htorn, toJson_eq]
      simp
    · exact torn_ne_toJson hjson htorn hmissing
  fromStr_torn_append e e' torn missing h htorn hmissing := by
    have hjson : e.toJson = torn.toList ++ missing.toList := by
      simpa [serdeJson] using congrArg String.toList h
    have htorn : torn.toList ≠ [] := by simpa using htorn
    have hmissing : missing.toList ≠ [] := by simpa using hmissing
    apply serdeJson_fromStr_eq_none
    intro e''
    simpa [serdeJson] using torn_append_ne_toJson hjson htorn hmissing

end Synaptica.Cluster
