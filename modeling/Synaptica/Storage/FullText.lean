import Synaptica.Core.Text
import Synaptica.Lib.Fallible
import Synaptica.Lib.Run
import Synaptica.Lib.Terminated
import Synaptica.Lib.Traverse
import Synaptica.Storage.GraphIsolation

/-!
# Full-text search

`synaptica_storage::fulltext`. An index keeps one key per posting, a token and a node under it, and
a search scans the blocks of the query's tokens and intersects what it finds. The postings after a
run of `index_text` and `remove_text` calls are a set (`TextCall.postings`); `search_exact` and
`searchPrefix_exact` say what the two searches answer in terms of that set.

Tokens hold no NUL, which is the separator behind the token in a key; so a block is the block of one
token even where tokens are prefixes of each other and identifiers contain any bytes.
-/

namespace Synaptica.Storage

open OrderedMap (scan mem_scan)
open Journaled

/-! ## Tokens -/

/-- No NUL character in the text. -/
def NulFree (s : String) : Prop := '\x00' ∉ s.toList

/-- What is documented of NUL: it is neither letter nor digit, and no other character becomes it in
lower case. -/
structure Runtime.KnowsNul (rt : Runtime) : Prop where
  alphanumeric : rt.isAlphanumeric '\x00' = false
  lowercase : ∀ s, NulFree s → NulFree (rt.toLowercase s)

/-- The pieces between separators contain none. -/
theorem not_of_mem_splitOnP {α : Type} {p : α → Bool} {l w : List α} (hw : w ∈ l.splitOnP p) {a : α}
    (ha : a ∈ w) : p a = false := by
  induction l generalizing w with
  | nil =>
    rw [List.splitOnP_nil, List.mem_singleton] at hw
    subst hw
    cases ha
  | cons b l ih =>
    rw [List.splitOnP_cons_eq_if_modifyHead] at hw
    cases hsplit : l.splitOnP p with
    | nil => exact absurd hsplit (List.splitOnP_ne_nil p l)
    | cons first pieces =>
      rw [hsplit] at ih hw
      cases hb : p b with
      | true =>
        rw [hb, if_pos rfl] at hw
        rcases List.mem_cons.mp hw with rfl | hold
        · cases ha
        · exact ih hold ha
      | false =>
        rw [hb, if_neg Bool.false_ne_true, List.modifyHead_cons] at hw
        rcases List.mem_cons.mp hw with rfl | hold
        · rcases List.mem_cons.mp ha with rfl | htail
          · exact hb
          · exact ih List.mem_cons_self htail
        · exact ih (List.mem_cons_of_mem _ hold) ha

variable {rt : Runtime}

theorem nulFree_of_mem_tokenize (h : rt.isAlphanumeric '\x00' = false) {text t : String}
    (ht : t ∈ tokenize rt text) : NulFree t := by
  unfold tokenize at ht
  rw [Std.ExtTreeSet.mem_ofList, List.contains_iff_mem] at ht
  obtain ⟨w, hw, rfl⟩ := List.mem_map.mp (List.mem_filter.mp ht).1
  intro hnul
  rw [String.toList_ofList] at hnul
  have hsep := not_of_mem_splitOnP hw hnul
  simp [h] at hsep

namespace FullTextIndex

variable {ft : FullTextIndex}

/-! ## Keys -/

theorem entryKey_eq (token : String) (nodeId : NodeId) :
    entryKey rt ft token nodeId = namePrefix rt ft ++ (utf8 token ++ 0 :: nodeId.asBytes) :=
  List.append_assoc _ _ _

theorem entryKey_inj {t t' : String} {n n' : NodeId} (ht : NulFree t) (ht' : NulFree t') :
    entryKey rt ft t n = entryKey rt ft t' n' ↔ t = t' ∧ n = n' := by
  rw [entryKey_eq, entryKey_eq, List.append_cancel_left_eq,
    Terminated.terminated_inj (zero_notMem_utf8 ht) (zero_notMem_utf8 ht'), utf8_injective.eq_iff,
    NodeId.asBytes_injective.eq_iff]

/-- The block of a token holds its postings. -/
theorem tokenPrefix_prefix_iff {t t' : String} {n : NodeId} (ht : NulFree t) (ht' : NulFree t') :
    tokenPrefix rt ft t <+: entryKey rt ft t' n ↔ t = t' := by
  have happend : tokenPrefix rt ft t = namePrefix rt ft ++ (utf8 t ++ 0 :: []) :=
    List.append_assoc _ _ _
  rw [happend, entryKey_eq, List.prefix_append_right_inj,
    Terminated.terminated_prefix_iff (zero_notMem_utf8 ht) (zero_notMem_utf8 ht'),
    utf8_injective.eq_iff]
  simp

/-- The block of a text holds the postings of the tokens that start with it. -/
theorem tokenScanPrefix_prefix_iff {start t : String} {n : NodeId} (hstart : NulFree start) :
    tokenScanPrefix rt ft start <+: entryKey rt ft t n ↔ ∃ rest, t = start ++ rest := by
  rw [tokenScanPrefix, entryKey_eq, List.prefix_append_right_inj,
    Terminated.prefix_terminated_iff (zero_notMem_utf8 hstart)]
  constructor
  · rintro ⟨b, hb⟩
    obtain ⟨rest, hrest, -⟩ := exists_append_of_utf8_eq hb
    exact ⟨rest, hrest⟩
  · rintro ⟨rest, rfl⟩
    rw [utf8_append]
    exact List.prefix_append _ _

/-! ## Runs of calls -/

/-- A token and a node under it. -/
abbrev Posting := String × NodeId

/-- A call that changes the index. -/
inductive TextCall where
  | indexText (nodeId : NodeId) (text : String)
  | removeText (nodeId : NodeId) (text : String)

namespace TextCall

variable (rt ft)

def call : TextCall → StorageM Unit
  | .indexText nodeId text => FullTextIndex.indexText rt ft nodeId text
  | .removeText nodeId text => FullTextIndex.removeText rt ft nodeId text

/-- The store after a call. -/
def step (db : Db) (c : TextCall) : Db := exec (c.call rt ft) db

/-- The postings after a call: those of the text are added, or removed. -/
def apply (postings : Set Posting) : TextCall → Set Posting
  | .indexText nodeId text => postings ∪ {p | p.1 ∈ tokenize rt text ∧ p.2 = nodeId}
  | .removeText nodeId text => postings \ {p | p.1 ∈ tokenize rt text ∧ p.2 = nodeId}

/-- The postings that are stored after a run of calls. -/
def postings (calls : List TextCall) : Set Posting := Run.exec (apply rt) ∅ calls

end TextCall

variable (rt ft) in
/-- The block of the index holds the keys of the postings, and no others. -/
structure Inverts (db : Db) (postings : Set Posting) : Prop where
  nulFree : ∀ p ∈ postings, NulFree p.1
  keys : ∀ k, namePrefix rt ft <+: k →
    ((db .propIndex)[k]?.isSome ↔ ∃ p ∈ postings, entryKey rt ft p.1 p.2 = k)

variable {db : Db} {postings : Set Posting}

/-- The keys that a call touches are those of the tokens of its text. -/
theorem mem_keys_iff {text : String} {nodeId : NodeId} {k : Bytes} :
    k ∈ (tokenize rt text).toList.map (fun t => entryKey rt ft t nodeId) ↔
      ∃ p : Posting, (p.1 ∈ tokenize rt text ∧ p.2 = nodeId) ∧ entryKey rt ft p.1 p.2 = k := by
  rw [List.mem_map]
  constructor
  · rintro ⟨t, ht, rfl⟩
    exact ⟨(t, nodeId), ⟨Std.ExtTreeSet.mem_toList.mp ht, rfl⟩, rfl⟩
  · rintro ⟨⟨t, n⟩, ⟨ht, rfl⟩, rfl⟩
    exact ⟨t, Std.ExtTreeSet.mem_toList.mpr ht, rfl⟩

/-- One call. -/
theorem Inverts.step (hnul : rt.isAlphanumeric '\x00' = false) (h : Inverts rt ft db postings)
    (c : TextCall) : Inverts rt ft (c.step rt ft db) (c.apply rt postings) := by
  have htoken : ∀ {text t}, t ∈ tokenize rt text → NulFree t := nulFree_of_mem_tokenize hnul
  cases c with
  | indexText nodeId text =>
    refine ⟨?_, ?_⟩
    · rintro p (hp | ⟨hp, -⟩)
      · exact h.nulFree p hp
      · exact htoken hp
    · intro k hk
      have hget : (TextCall.step rt ft db (.indexText nodeId text) .propIndex)[k]? =
          if k ∈ (tokenize rt text).toList.map (fun t => entryKey rt ft t nodeId) then some []
          else (db .propIndex)[k]? := by
        have hwrite := Db.getElem?_write_puts db .propIndex .propIndex
          (fun t => entryKey rt ft t nodeId) (tokenize rt text).toList [] k
        simp only [true_and] at hwrite
        exact hwrite
      rw [hget]
      by_cases hmem : k ∈ (tokenize rt text).toList.map fun t => entryKey rt ft t nodeId
      · obtain ⟨p, hp, hkey⟩ := mem_keys_iff.mp hmem
        rw [if_pos hmem]
        exact ⟨fun _ => ⟨p, .inr hp, hkey⟩, fun _ => rfl⟩
      · rw [if_neg hmem, h.keys k hk]
        constructor
        · rintro ⟨p, hp, hkey⟩
          exact ⟨p, .inl hp, hkey⟩
        · rintro ⟨p, hp | hp, hkey⟩
          · exact ⟨p, hp, hkey⟩
          · exact absurd (mem_keys_iff.mpr ⟨p, hp, hkey⟩) hmem
  | removeText nodeId text =>
    refine ⟨?_, ?_⟩
    · rintro p ⟨hp, -⟩
      exact h.nulFree p hp
    · intro k hk
      have hget : (TextCall.step rt ft db (.removeText nodeId text) .propIndex)[k]? =
          if k ∈ (tokenize rt text).toList.map (fun t => entryKey rt ft t nodeId) then none
          else (db .propIndex)[k]? := by
        have hwrite := Db.getElem?_write_deletes db .propIndex .propIndex
          (fun t => entryKey rt ft t nodeId) (tokenize rt text).toList k
        simp only [true_and] at hwrite
        exact hwrite
      rw [hget]
      by_cases hmem : k ∈ (tokenize rt text).toList.map fun t => entryKey rt ft t nodeId
      · rw [if_pos hmem]
        refine ⟨fun hnone => absurd hnone Bool.false_ne_true, ?_⟩
        rintro ⟨p, ⟨hp, hkept⟩, hkey⟩
        -- The key is that of a posting removed, and a key is the key of one posting only.
        obtain ⟨p', hp', hkey'⟩ := mem_keys_iff.mp hmem
        obtain ⟨htoken', hnode⟩ :=
          (entryKey_inj (h.nulFree p hp) (htoken hp'.1)).mp (hkey.trans hkey'.symm)
        exact absurd ⟨htoken' ▸ hp'.1, hnode.trans hp'.2⟩ hkept
      · rw [if_neg hmem, h.keys k hk]
        constructor
        · rintro ⟨p, hp, hkey⟩
          exact ⟨p, ⟨hp, fun hremoved => hmem (mem_keys_iff.mpr ⟨p, hremoved, hkey⟩)⟩, hkey⟩
        · rintro ⟨p, ⟨hp, -⟩, hkey⟩
          exact ⟨p, hp, hkey⟩

/-- **A run of calls** leaves the keys of the postings in the block of the index. -/
theorem inverts_run (hnul : rt.isAlphanumeric '\x00' = false)
    (hfresh : ∀ k, namePrefix rt ft <+: k → (db .propIndex)[k]? = none) (calls : List TextCall) :
    Inverts rt ft (Run.exec (TextCall.step rt ft) db calls) (TextCall.postings rt calls) := by
  have hrun : ∀ (db : Db) (postings : Set Posting), Inverts rt ft db postings →
      Inverts rt ft (Run.exec (TextCall.step rt ft) db calls)
        (Run.exec (TextCall.apply rt) postings calls) := by
    induction calls with
    | nil => exact fun db postings h => h
    | cons c calls ih => exact fun db postings h => ih _ _ (h.step hnul c)
  apply hrun
  refine ⟨fun p hp => hp.elim, ?_⟩
  intro k hk
  simp [hfresh k hk]

/-! ## Searches -/

/-- The nodes of the postings in a block. -/
theorem Inverts.scanPrefixIds (h : Inverts rt ft db postings) {keyPrefix : Bytes}
    (hwithin : namePrefix rt ft <+: keyPrefix) :
    ∃ ids, FullTextIndex.scanPrefixIds db keyPrefix = .ok ids ∧
      ∀ n, n ∈ ids ↔ ∃ t, (t, n) ∈ postings ∧ keyPrefix <+: entryKey rt ft t n := by
  have hextract : ∀ t n, extractNodeId (entryKey rt ft t n) = .ok n := by
    intro t n
    have hlen : ¬ (entryKey rt ft t n).length < 16 := by
      simp [entryKey]
      omega
    have hdecode : decodeIdSuffix "invalid node id in ft index" (entryKey rt ft t n) = .ok n.uuid := by
      rw [entryKey, List.append_cons, NodeId.asBytes]
      exact decodeIdSuffix_append n.uuid
    rw [extractNodeId, if_neg hlen, hdecode]
    rfl
  -- Every entry of the block is the key of a posting.
  have hentry : ∀ e ∈ scan (db .propIndex) keyPrefix, ∃ p ∈ postings, entryKey rt ft p.1 p.2 = e.1 := by
    intro e he
    obtain ⟨hget, hblock⟩ := (mem_scan _).mp he
    apply (h.keys e.1 (hwithin.trans hblock)).mp
    rw [hget]
    rfl
  refine ⟨_, List.mapM_eq_ok_filterMap ?_, ?_⟩
  · intro e he
    obtain ⟨p, -, hkey⟩ := hentry e he
    exact ⟨p.2, by rw [← hkey, hextract]⟩
  · intro n
    rw [List.mem_filterMap]
    constructor
    · rintro ⟨e, he, hn⟩
      obtain ⟨⟨t, n'⟩, hp, hkey⟩ := hentry e he
      rw [← hkey, hextract] at hn
      cases hn
      exact ⟨t, hp, hkey ▸ ((mem_scan _).mp he).2⟩
    · rintro ⟨t, hp, hblock⟩
      have hstored := (h.keys (entryKey rt ft t n) (hwithin.trans hblock)).mpr ⟨(t, n), hp, rfl⟩
      obtain ⟨v, hv⟩ := Option.isSome_iff_exists.mp hstored
      exact ⟨(entryKey rt ft t n, v), (mem_scan _).mpr ⟨hv, hblock⟩, by rw [hextract]; rfl⟩

/-- The postings of one token. -/
theorem Inverts.scanToken (h : Inverts rt ft db postings) {t : String} (ht : NulFree t) :
    ∃ ids, FullTextIndex.scanPrefixIds db (tokenPrefix rt ft t) = .ok ids ∧
      ∀ n, n ∈ ids ↔ (t, n) ∈ postings := by
  have hwithin : namePrefix rt ft <+: tokenPrefix rt ft t := by
    rw [tokenPrefix, List.append_assoc]
    exact List.prefix_append _ _
  obtain ⟨ids, hids, hmem⟩ := h.scanPrefixIds hwithin
  refine ⟨ids, hids, ?_⟩
  intro n
  rw [hmem]
  constructor
  · rintro ⟨t', hp, hblock⟩
    rwa [(tokenPrefix_prefix_iff ht (h.nulFree _ hp)).mp hblock]
  · intro hp
    exact ⟨t, hp, (tokenPrefix_prefix_iff ht ht).mpr rfl⟩

/-- The loop of a search keeps the nodes that are posted under every token left. It stops early only
when none is. -/
theorem Inverts.intersectPostings (h : Inverts rt ft db postings) {tokens : List String}
    (htokens : ∀ t ∈ tokens, NulFree t) (result : OrderedSet NodeId) :
    ∃ ids, FullTextIndex.intersectPostings rt ft db result tokens = .ok ids ∧
      ∀ n, n ∈ ids ↔ n ∈ result ∧ ∀ t ∈ tokens, (t, n) ∈ postings := by
  induction tokens generalizing result with
  | nil => exact ⟨result, rfl, by simp⟩
  | cons t tokens ih =>
    obtain ⟨posted, hposted, hmem⟩ := h.scanToken (htokens t List.mem_cons_self)
    have hkept : ∀ n, n ∈ result.filter (fun id => posted.contains id) ↔
        n ∈ result ∧ (t, n) ∈ postings := by
      intro n
      rw [← hmem]
      simp
    rw [FullTextIndex.intersectPostings, hposted, Except.ok_bind]
    by_cases hempty : (result.filter fun id => posted.contains id).isEmpty
    · refine ⟨_, if_pos hempty, ?_⟩
      intro n
      have hnot : n ∉ result.filter fun id => posted.contains id := by
        rw [Std.ExtTreeSet.isEmpty_iff.mp hempty]
        exact Std.ExtTreeSet.not_mem_empty
      refine ⟨fun hn => absurd hn hnot, ?_⟩
      rintro ⟨hn, hall⟩
      exact absurd ((hkept n).mpr ⟨hn, hall t List.mem_cons_self⟩) hnot
    · obtain ⟨ids, hids, hiff⟩ := ih (fun t' ht' => htokens t' (List.mem_cons_of_mem _ ht'))
        (result.filter fun id => posted.contains id)
      refine ⟨ids, ?_, ?_⟩
      · simp only [if_neg hempty]
        exact hids
      · intro n
        rw [hiff, hkept, List.forall_mem_cons, and_assoc]

/-- The elements of an ordered set in ascending order, each once. -/
theorem pairwise_lt_toList (s : OrderedSet NodeId) : s.toList.Pairwise (· < ·) := by
  apply Std.ExtTreeSet.ordered_toList.imp
  intro a b hab
  exact compare_lt_iff_lt.mp hab

/-- The nodes posted under every token of the query. -/
theorem Inverts.search (h : Inverts rt ft db postings) (hnul : rt.isAlphanumeric '\x00' = false)
    (query : String) :
    ∃ ids, FullTextIndex.search rt ft db query = .ok ids ∧ ids.Pairwise (· < ·) ∧
      ((∀ t, t ∉ tokenize rt query) → ids = []) ∧
      ∀ n, n ∈ ids ↔
        (∃ t, t ∈ tokenize rt query) ∧ ∀ t ∈ tokenize rt query, (t, n) ∈ postings := by
  have htokens : ∀ t, t ∈ (tokenize rt query).toList ↔ t ∈ tokenize rt query :=
    fun t => Std.ExtTreeSet.mem_toList
  unfold FullTextIndex.search
  cases hlist : (tokenize rt query).toList with
  | nil =>
    have hnone : ∀ t, t ∉ tokenize rt query := by
      intro t ht
      rw [← htokens, hlist] at ht
      cases ht
    refine ⟨[], rfl, List.Pairwise.nil, fun _ => rfl, ?_⟩
    intro n
    refine ⟨fun hn => absurd hn List.not_mem_nil, ?_⟩
    rintro ⟨⟨t, ht⟩, -⟩
    exact absurd ht (hnone t)
  | cons first tokens =>
    rw [hlist] at htokens
    have hfree : ∀ t ∈ first :: tokens, NulFree t := by
      intro t ht
      exact nulFree_of_mem_tokenize hnul ((htokens t).mp ht)
    obtain ⟨posted, hposted, hmem⟩ := h.scanToken (hfree first List.mem_cons_self)
    obtain ⟨kept, hkept, hiff⟩ := h.intersectPostings
      (fun t ht => hfree t (List.mem_cons_of_mem _ ht)) (Std.ExtTreeSet.ofList posted _)
    have hfirst := (htokens first).mp List.mem_cons_self
    refine ⟨kept.toList, ?_, pairwise_lt_toList kept, fun hnone => absurd hfirst (hnone first), ?_⟩
    · simp only [hposted, Except.ok_bind, hkept]
      rfl
    · intro n
      have hstart : n ∈ Std.ExtTreeSet.ofList posted (compare : NodeId → NodeId → Ordering) ↔
          (first, n) ∈ postings := by
        rw [Std.ExtTreeSet.mem_ofList, List.contains_iff_mem, hmem]
      rw [Std.ExtTreeSet.mem_toList, hiff, hstart]
      constructor
      · rintro ⟨hp, hall⟩
        refine ⟨⟨first, hfirst⟩, ?_⟩
        intro t ht
        rcases List.mem_cons.mp ((htokens t).mpr ht) with rfl | htail
        · exact hp
        · exact hall t htail
      · rintro ⟨-, hall⟩
        refine ⟨hall first hfirst, ?_⟩
        intro t ht
        exact hall t ((htokens t).mp (List.mem_cons_of_mem _ ht))

/-- The nodes posted under some token that starts with the text, in lower case. -/
theorem Inverts.searchPrefix (h : Inverts rt ft db postings) {start : String}
    (hstart : NulFree (rt.toLowercase start)) :
    ∃ ids, FullTextIndex.searchPrefix rt ft db start = .ok ids ∧ ids.Pairwise (· < ·) ∧
      ∀ n, n ∈ ids ↔ ∃ t, (t, n) ∈ postings ∧ ∃ rest, t = rt.toLowercase start ++ rest := by
  have hblock : namePrefix rt ft <+: tokenScanPrefix rt ft (rt.toLowercase start) :=
    List.prefix_append _ _
  obtain ⟨ids, hids, hmem⟩ := h.scanPrefixIds hblock
  refine ⟨_, ?_, pairwise_lt_toList (Std.ExtTreeSet.ofList ids _), ?_⟩
  · rw [FullTextIndex.searchPrefix, hids]
    rfl
  · intro n
    rw [Std.ExtTreeSet.mem_toList, Std.ExtTreeSet.mem_ofList, List.contains_iff_mem, hmem]
    apply exists_congr
    intro t
    rw [tokenScanPrefix_prefix_iff hstart]

/-- **Full-text search computes the token intersection**, after every run of calls on a store that
held nothing under the index: `search` answers the nodes posted under every token of the query, and
`search_prefix` those posted under some token that starts with the text, each in ascending order
without duplicates. -/
theorem search_exact (hrt : rt.KnowsNul)
    (hfresh : ∀ k, namePrefix rt ft <+: k → (db .propIndex)[k]? = none) (calls : List TextCall) :
    (∀ query, ∃ ids,
        FullTextIndex.search rt ft (Run.exec (TextCall.step rt ft) db calls) query = .ok ids ∧
          ids.Pairwise (· < ·) ∧ ((∀ t, t ∉ tokenize rt query) → ids = []) ∧
          ∀ n, n ∈ ids ↔ (∃ t, t ∈ tokenize rt query) ∧
            ∀ t ∈ tokenize rt query, (t, n) ∈ TextCall.postings rt calls) ∧
      ∀ start, NulFree start → ∃ ids,
        FullTextIndex.searchPrefix rt ft (Run.exec (TextCall.step rt ft) db calls) start = .ok ids ∧
          ids.Pairwise (· < ·) ∧
          ∀ n, n ∈ ids ↔ ∃ t, (t, n) ∈ TextCall.postings rt calls ∧
            ∃ rest, t = rt.toLowercase start ++ rest := by
  have h := inverts_run hrt.alphanumeric hfresh calls
  refine ⟨fun query => h.search hrt.alphanumeric query, ?_⟩
  intro start hstart
  exact h.searchPrefix (hrt.lowercase start hstart)

theorem knowsNul_sampleRuntime : sampleRuntime.KnowsNul where
  alphanumeric := by decide
  lowercase _ h := h

/-- An index over biographies. -/
def bios : FullTextIndex := ⟨sampleGraph, "bios", "bio"⟩

/-- Two biographies, of which the second one is taken out of the index again. -/
def indexedBios : List TextCall :=
  [.indexText person.id "graph database", .indexText ⟨sampleId 2⟩ "graphs",
    .removeText ⟨sampleId 2⟩ "graphs"]

/-- The search for both words finds the first of them. -/
theorem search_exact_bios :
    FullTextIndex.search sampleRuntime bios
        (Run.exec (TextCall.step sampleRuntime bios) Db.empty indexedBios) "database graph" =
      .ok [person.id] ∧
    ∃ ids,
      FullTextIndex.search sampleRuntime bios
          (Run.exec (TextCall.step sampleRuntime bios) Db.empty indexedBios) "database graph" =
        .ok ids ∧
        ids.Pairwise (· < ·) ∧ ((∀ t, t ∉ tokenize sampleRuntime "database graph") → ids = []) ∧
        ∀ n, n ∈ ids ↔ (∃ t, t ∈ tokenize sampleRuntime "database graph") ∧
          ∀ t ∈ tokenize sampleRuntime "database graph",
            (t, n) ∈ TextCall.postings sampleRuntime indexedBios :=
  ⟨by decide +kernel,
    (search_exact knowsNul_sampleRuntime (fun _ _ => by simp [Db.empty]) indexedBios).1
      "database graph"⟩

end FullTextIndex

end Synaptica.Storage
