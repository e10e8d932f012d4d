import Synaptica.Lib.Schedule
import Synaptica.Storage.GraphIsolation

/-!
# Two nodes for one unique value

`IndexManager::index_node` on a unique index looks for another node with the same values and then
puts its entry, all while it holds a mutex. The mutex belongs to the manager, and
`StorageEngine::index_node` makes a manager for each call, so two calls never wait for each other.
Both succeed when each of them opens its scan before the other one puts.
-/

namespace Synaptica.Storage

open Process (Side)
open OrderedMap (scan)

/-- Where a call of `index_node` on a unique index is. -/
inductive CallPhase where
  | start
  | locked
  /-- The iterator is open, and these keys of its snapshot are still to be read. -/
  | scanning (rest : List Bytes)
  | checked
  | stored
  | rejected
  | done (ok : Bool)
  deriving DecidableEq

/-- Two calls on one unique index, for different nodes whose values encode equally. -/
structure Race where
  rt : Runtime
  index : IndexDefinition
  isUnique : index.unique = true
  node : Side → Node
  distinct : (node .left).id ≠ (node .right).id
  sameValues : encodeProperties rt index (node .left) = encodeProperties rt index (node .right)

/-- The store, the phases of the two calls, and which mutexes are held. -/
structure RaceState where
  db : Db
  phase : Side → CallPhase
  held : Nat → Bool

namespace Race

variable (r : Race)

/-- The prefix that both calls scan. -/
def valuePrefix : Bytes :=
  IndexManager.entryValuePrefix r.rt r.index (encodeProperties r.rt r.index (r.node .left))

/-- The entry of a node. -/
def key (side : Side) : Bytes :=
  IndexManager.entryKey r.rt r.index (encodeProperties r.rt r.index (r.node side)) (r.node side).id

/-- The key is an entry of another node. -/
def isOther (side : Side) (k : Bytes) : Bool :=
  decide (16 ≤ k.length) && idSuffix k != (r.node side).id.asBytes

/-- The keys a scan that is opened now will read. -/
def found (db : Db) : List Bytes := (scan (db .propIndex) r.valuePrefix).map (·.1)

/-- One step of the call at `side`; `mutex` says which mutex a call locks. -/
def move (mutex : Side → Nat) (s : RaceState) (side : Side) : RaceState :=
  match s.phase side with
  | .start =>
    if s.held (mutex side) then s
    else ⟨s.db, Function.update s.phase side .locked, Function.update s.held (mutex side) true⟩
  | .locked => ⟨s.db, Function.update s.phase side (.scanning (r.found s.db)), s.held⟩
  | .scanning [] => ⟨s.db, Function.update s.phase side .checked, s.held⟩
  | .scanning (k :: rest) =>
    ⟨s.db, Function.update s.phase side (if r.isOther side k then .rejected else .scanning rest), s.held⟩
  | .checked => ⟨s.db.apply (.put .propIndex (r.key side) []), Function.update s.phase side .stored, s.held⟩
  | .stored =>
    ⟨s.db, Function.update s.phase side (.done true), Function.update s.held (mutex side) false⟩
  | .rejected =>
    ⟨s.db, Function.update s.phase side (.done false), Function.update s.held (mutex side) false⟩
  | .done _ => s

/-- Before the first step of either call. -/
def initial (db : Db) : RaceState := ⟨db, fun _ => .start, fun _ => false⟩

/-- Each call of `StorageEngine::index_node` makes a manager, and a mutex, of its own. -/
def ownMutex : Side → Nat
  | .left => 0
  | .right => 1

/-- The steps of a schedule, as the engine takes them. -/
def exec (db : Db) (schedule : List Side) : RaceState :=
  schedule.foldl (r.move ownMutex) (initial db)

theorem exec_concat (db : Db) (schedule : List Side) (side : Side) :
    r.exec db (schedule ++ [side]) = r.move ownMutex (r.exec db schedule) side := by
  simp [exec, List.foldl_append]

/-- Both calls have ended. -/
def Finished (s : RaceState) : Prop := ∀ side, ∃ ok, s.phase side = .done ok

/-- At most one of the two calls has succeeded. -/
def AtMostOne (s : RaceState) : Prop := ¬ ∀ side, s.phase side = .done true

/-- The schedule lets the other call take four turns (lock, open the scan, reach its end, put) before
this one has taken two (lock, open the scan). -/
def Late (side : Side) (schedule : List Side) : Prop :=
  ∃ p, p <+: schedule ∧ p.count side < 2 ∧ 4 ≤ p.count side.other

/-! ## Entries -/

theorem isOther_iff {side : Side} {k : Bytes} :
    r.isOther side k ↔ 16 ≤ k.length ∧ idSuffix k ≠ (r.node side).id.asBytes := by
  simp [isOther]

theorem key_eq (side : Side) : r.key side = r.valuePrefix ++ (r.node side).id.asBytes := by
  cases side with
  | left => rfl
  | right =>
    rw [valuePrefix, r.sameValues]
    rfl

theorem le_length_valuePrefix : 16 ≤ r.valuePrefix.length := by
  simp [valuePrefix, IndexManager.entryValuePrefix, IndexManager.entryPrefix]

theorem isOther_key {side other : Side} : r.isOther side (r.key other) ↔ side ≠ other := by
  rw [isOther_iff, key_eq, idSuffix_append (by simp)]
  have hlength := r.le_length_valuePrefix
  have hne := r.distinct
  have hid : (r.node other).id.asBytes = (r.node side).id.asBytes ↔
      (r.node other).id = (r.node side).id := NodeId.asBytes_injective.eq_iff
  cases side <;> cases other <;> simp [hid, hne, Ne.symm hne]

theorem mem_found {db : Db} {k : Bytes} :
    k ∈ r.found db ↔ (db .propIndex)[k]? ≠ none ∧ r.valuePrefix <+: k := by
  simp only [found, List.mem_map, Prod.exists, exists_and_right, exists_eq_right,
    OrderedMap.mem_scan, Option.ne_none_iff_exists']

theorem nodup_found (db : Db) : (r.found db).Nodup :=
  List.pairwise_map.mpr ((OrderedMap.pairwise_scan _ _).imp fun h => ne_of_lt h)

/-- The check of `index_node` is a search among the keys a scan finds. -/
theorem hasDuplicate_iff {db : Db} {side : Side} :
    IndexManager.hasDuplicate r.rt db r.index (r.node side) ↔ ∃ k ∈ r.found db, r.isOther side k := by
  have hvalues : IndexManager.entryValuePrefix r.rt r.index
      (encodeProperties r.rt r.index (r.node side)) = r.valuePrefix := by
    cases side with
    | left => rfl
    | right => rw [valuePrefix, r.sameValues]
  rw [IndexManager.hasDuplicate, hvalues, List.any_eq_true]
  simp [found, isOther]

/-- Without an entry of another node for either call there is no entry at all. -/
theorem found_eq_nil {db : Db}
    (h : ∀ side, ¬ IndexManager.hasDuplicate r.rt db r.index (r.node side)) : r.found db = [] := by
  rw [List.eq_nil_iff_forall_not_mem]
  intro k hk
  have hown : ∀ side, idSuffix k = (r.node side).id.asBytes := by
    intro side
    by_contra hne
    refine h side (r.hasDuplicate_iff.mpr ⟨k, hk, r.isOther_iff.mpr ⟨?_, hne⟩⟩)
    exact r.le_length_valuePrefix.trans (r.mem_found.mp hk).2.length_le
  exact r.distinct (NodeId.asBytes_injective ((hown .left).symm.trans (hown .right)))

/-- A put adds its key. -/
theorem mem_found_put {db : Db} {side : Side} {k : Bytes} :
    k ∈ r.found (db.apply (.put .propIndex (r.key side) [])) ↔ k = r.key side ∨ k ∈ r.found db := by
  rw [mem_found, mem_found, Db.getElem?_apply]
  simp only [WriteOp.cf, WriteOp.key, WriteOp.result, true_and]
  have hvalues : r.valuePrefix <+: r.key side := by
    rw [key_eq]
    exact List.prefix_append _ _
  by_cases hk : r.key side = k
  · subst hk
    simp [hvalues]
  · simp [hk, Ne.symm hk]

/-! ## An entry that was there before -/

/-- The call has seen an entry of another node, or will see one. -/
def Doomed (side : Side) (s : RaceState) : Prop :=
  match s.phase side with
  | .start | .locked => ∃ k ∈ r.found s.db, r.isOther side k
  | .scanning rest => ∃ k ∈ rest, r.isOther side k
  | .rejected | .done false => True
  | _ => False

/-- A step only adds entries. -/
theorem found_subset_move (mutex : Side → Nat) (s : RaceState) (turn : Side) :
    r.found s.db ⊆ r.found (r.move mutex s turn).db := by
  intro k hk
  unfold move
  split
  · split <;> exact hk
  case h_5 => exact r.mem_found_put.mpr (.inr hk)
  all_goals exact hk

theorem phase_move_of_ne {mutex : Side → Nat} {s : RaceState} {turn side : Side} (h : side ≠ turn) :
    (r.move mutex s turn).phase side = s.phase side := by
  unfold move
  split
  · split
    · rfl
    · exact Function.update_of_ne h _ _
  case h_8 => rfl
  all_goals exact Function.update_of_ne h _ _

theorem Doomed.move {r : Race} {mutex : Side → Nat} {s : RaceState} {side : Side}
    (h : r.Doomed side s) (turn : Side) : r.Doomed side (r.move mutex s turn) := by
  by_cases hside : side = turn
  · subst hside
    unfold Doomed at h
    unfold Race.move
    cases hphase : s.phase side with
    | start =>
      rw [hphase] at h
      dsimp only
      split
      · simpa [Doomed, hphase] using h
      · simpa [Doomed] using h
    | locked =>
      rw [hphase] at h
      simpa [Doomed] using h
    | scanning rest =>
      rw [hphase] at h
      obtain ⟨k, hk, hother⟩ := h
      cases rest with
      | nil => cases hk
      | cons first rest =>
        dsimp only
        by_cases hfirst : r.isOther side first
        · simp [Doomed, hfirst]
        · -- the entry is not the one that was read now
          have hrest : k ∈ rest := (List.mem_cons.mp hk).resolve_left fun he => hfirst (he ▸ hother)
          simpa [Doomed, hfirst] using ⟨k, hrest, hother⟩
    | rejected => simp [Doomed]
    | done ok => simpa [Doomed, hphase] using h
    | checked | stored =>
      rw [hphase] at h
      cases h
  · unfold Doomed at h ⊢
    rw [phase_move_of_ne r hside]
    have hmore : (∃ k ∈ r.found s.db, r.isOther side k = true) →
        ∃ k ∈ r.found (r.move mutex s turn).db, r.isOther side k = true :=
      fun ⟨k, hk, hother⟩ => ⟨k, r.found_subset_move mutex s turn hk, hother⟩
    split <;> rename_i hphase <;> simp only [hphase] at h
    · exact hmore h
    · exact hmore h
    · exact h
    · trivial
    · trivial

/-- A call for which there is an entry of another node fails. -/
theorem doomed_exec {db : Db} {side : Side}
    (h : IndexManager.hasDuplicate r.rt db r.index (r.node side)) (schedule : List Side) :
    r.Doomed side (r.exec db schedule) := by
  induction schedule using List.reverseRecOn with
  | nil => exact r.hasDuplicate_iff.mp h
  | append_singleton schedule turn ih =>
    rw [exec_concat]
    exact ih.move turn

/-! ## Counting turns -/

theorem late_concat {side turn : Side} {schedule : List Side} :
    Late side (schedule ++ [turn]) ↔ Late side schedule ∨
      ((schedule ++ [turn]).count side < 2 ∧ 4 ≤ (schedule ++ [turn]).count side.other) := by
  constructor
  · rintro ⟨p, hp, hlate⟩
    rcases List.prefix_concat_iff.mp hp with rfl | hp
    · exact .inr hlate
    · exact .inl ⟨p, hp, hlate⟩
  · rintro (⟨p, hp, hlate⟩ | hlate)
    · exact ⟨p, hp.trans (List.prefix_append _ _), hlate⟩
    · exact ⟨_, List.prefix_rfl, hlate⟩

/-- A call that has not opened its scan is late as soon as the other one has put. -/
theorem late_iff_of_count_lt {side : Side} {schedule : List Side} (h : schedule.count side < 2) :
    Late side schedule ↔ 4 ≤ schedule.count side.other := by
  constructor
  · rintro ⟨p, hp, -, hcount⟩
    exact hcount.trans (hp.sublist.count_le _)
  · exact fun hcount => ⟨schedule, List.prefix_rfl, h, hcount⟩

/-- To be late the other call has to take four turns. -/
theorem le_count_of_late {side : Side} {schedule : List Side} (h : Late side schedule) :
    4 ≤ schedule.count side.other := by
  obtain ⟨p, hp, -, hcount⟩ := h
  exact hcount.trans (hp.sublist.count_le _)

/-- Where a call is after `n` turns, when there was no entry before; a late one finds the entry of the
other call. -/
def phaseAfter (side : Side) (late : Prop) [Decidable late] : Nat → CallPhase
  | 0 => .start
  | 1 => .locked
  | 2 => .scanning (if late then [r.key side.other] else [])
  | 3 => if late then .rejected else .checked
  | 4 => if late then .done false else .stored
  | _ => .done (!decide late)

open Classical in
/-- What the turns taken so far say about the state. -/
structure Follows (schedule : List Side) (s : RaceState) : Prop where
  phase : ∀ side, s.phase side = r.phaseAfter side (Late side schedule) (schedule.count side)
  found : ∀ k, k ∈ r.found s.db ↔
    ∃ side, k = r.key side ∧ 4 ≤ schedule.count side ∧ ¬ Late side schedule
  held : ∀ side, schedule.count side = 0 → s.held (ownMutex side) = false

theorem count_concat (schedule : List Side) (turn side : Side) :
    (schedule ++ [turn]).count side = schedule.count side + if turn = side then 1 else 0 := by
  simp [List.count_append, List.count_singleton]

/-- Once a call has opened its scan it is late or it is not. -/
theorem late_concat_of_le {side turn : Side} {schedule : List Side}
    (h : 2 ≤ (schedule ++ [turn]).count side) :
    Late side (schedule ++ [turn]) ↔ Late side schedule := by
  rw [late_concat]
  constructor
  · rintro (hlate | ⟨hlt, -⟩)
    · exact hlate
    · omega
  · exact .inl

/-- The fourth turn of a call that is not late is its put. -/
theorem put_concat {side turn : Side} {schedule : List Side} :
    (4 ≤ (schedule ++ [turn]).count side ∧ ¬ Late side (schedule ++ [turn])) ↔
      (4 ≤ schedule.count side ∧ ¬ Late side schedule) ∨
        (side = turn ∧ schedule.count side = 3 ∧ ¬ Late side schedule) := by
  have hcount := count_concat schedule turn side
  by_cases hopen : 2 ≤ (schedule ++ [turn]).count side
  · rw [late_concat_of_le hopen, hcount]
    by_cases hturn : turn = side
    · subst hturn
      simp only [if_true, true_and]
      rw [← or_and_right]
      refine and_congr_left fun _ => ?_
      omega
    · simp [hturn, Ne.symm hturn]
  · constructor
    · rintro ⟨hfour, -⟩
      omega
    · rintro (⟨hfour, -⟩ | ⟨-, hthree, -⟩)
      · rw [hcount] at hopen
        omega
      · rw [hcount] at hopen
        omega

open Classical in
/-- The phase of the call that does not take the turn. -/
theorem phaseAfter_other {side turn : Side} (h : side ≠ turn) (schedule : List Side) :
    r.phaseAfter side (Late side (schedule ++ [turn])) ((schedule ++ [turn]).count side) =
      r.phaseAfter side (Late side schedule) (schedule.count side) := by
  have hcount : (schedule ++ [turn]).count side = schedule.count side := by
    rw [count_concat, if_neg (Ne.symm h), Nat.add_zero]
  by_cases hopen : 2 ≤ (schedule ++ [turn]).count side
  · rw [hcount]
    rw [hcount] at hopen
    have hlate := @late_concat_of_le _ turn _ (hcount ▸ hopen)
    simp only [hlate]
  · rw [hcount] at hopen ⊢
    obtain hn | hn : schedule.count side = 0 ∨ schedule.count side = 1 := by omega
    · rw [hn]
      rfl
    · rw [hn]
      rfl

theorem ne_other (side : Side) : side ≠ side.other := by cases side <;> decide

theorem eq_or_eq_other (side turn : Side) : side = turn ∨ side = turn.other := by
  cases side <;> cases turn <;> decide

/-- The scan of the second turn finds the entry of the other call exactly when the call is late. -/
theorem Follows.found_eq {r : Race} {schedule : List Side} {s : RaceState} (h : r.Follows schedule s)
    {side : Side} (hcount : schedule.count side = 1) [Decidable (Late side schedule)] :
    r.found s.db = if Late side schedule then [r.key side.other] else [] := by
  have hmem : ∀ k, k ∈ r.found s.db ↔ k = r.key side.other ∧ Late side schedule := by
    intro k
    rw [h.found, late_iff_of_count_lt (by omega)]
    constructor
    · rintro ⟨other, rfl, hput, -⟩
      rcases eq_or_eq_other other side with rfl | rfl
      · omega
      · exact ⟨rfl, hput⟩
    · rintro ⟨rfl, hput⟩
      refine ⟨side.other, rfl, hput, fun hlate => ?_⟩
      have hother := le_count_of_late hlate
      rw [show side.other.other = side by cases side <;> rfl] at hother
      omega
  split
  · rename_i hlate
    refine List.perm_singleton.mp ((List.perm_ext_iff_of_nodup (r.nodup_found _) (by simp)).mpr ?_)
    simpa [hlate] using hmem
  · rename_i hlate
    rw [List.eq_nil_iff_forall_not_mem]
    exact fun k hk => hlate ((hmem k).mp hk).2

open Classical in
/-- The phase of the call that takes the turn. -/
theorem Follows.phase_turn {r : Race} {schedule : List Side} {s : RaceState}
    (h : r.Follows schedule s) (turn : Side) :
    (r.move ownMutex s turn).phase turn =
      r.phaseAfter turn (Late turn (schedule ++ [turn])) ((schedule ++ [turn]).count turn) := by
  have hphase := h.phase turn
  have hcount := count_concat schedule turn turn
  rw [if_pos rfl] at hcount
  rw [hcount]
  obtain hn | hn | hn : schedule.count turn = 0 ∨ schedule.count turn = 1 ∨
      2 ≤ schedule.count turn := by omega
  · rw [hn] at hphase ⊢
    simp [Race.move, hphase, phaseAfter, h.held turn hn]
  · have hlate := late_concat_of_le (hcount ▸ (by omega) : 2 ≤ (schedule ++ [turn]).count turn)
    rw [hn] at hphase ⊢
    simp [Race.move, hphase, phaseAfter, h.found_eq hn, hlate]
  · have hlate := late_concat_of_le (hcount ▸ (by omega) : 2 ≤ (schedule ++ [turn]).count turn)
    simp only [hlate]
    obtain ⟨n, hn⟩ := Nat.exists_eq_add_of_le' hn
    rw [hn] at hphase ⊢
    have hother : r.isOther turn (r.key turn.other) = true := r.isOther_key.mpr (ne_other turn)
    by_cases hl : Late turn schedule
    · match n with
      | 0 => simp [Race.move, hphase, phaseAfter, hl, hother]
      | 1 => simp [Race.move, hphase, phaseAfter, hl]
      | 2 => simp [Race.move, hphase, phaseAfter, hl]
      | n + 3 => simp [Race.move, hphase, phaseAfter, hl]
    · match n with
      | 0 => simp [Race.move, hphase, phaseAfter, hl]
      | 1 => simp [Race.move, hphase, phaseAfter, hl]
      | 2 => simp [Race.move, hphase, phaseAfter, hl]
      | n + 3 => simp [Race.move, hphase, phaseAfter, hl]

/-- A turn puts an entry when it is the fourth one of a call that is not late. -/
theorem Follows.found_turn {r : Race} {schedule : List Side} {s : RaceState}
    (h : r.Follows schedule s) (turn : Side) (k : Bytes) :
    k ∈ r.found (r.move ownMutex s turn).db ↔
      k ∈ r.found s.db ∨ (k = r.key turn ∧ schedule.count turn = 3 ∧ ¬ Late turn schedule) := by
  classical
  have hphase := h.phase turn
  by_cases hput : schedule.count turn = 3 ∧ ¬ Late turn schedule
  · have hchecked : s.phase turn = .checked := by
      rw [hphase, hput.1]
      simp [phaseAfter, hput.2]
    rw [show (r.move ownMutex s turn).db = s.db.apply (.put .propIndex (r.key turn) []) by
      simp [Race.move, hchecked], mem_found_put]
    simp [hput, or_comm]
  · have hdb : (r.move ownMutex s turn).db = s.db := by
      unfold Race.move
      split
      case h_5 hchecked =>
        -- only the third turn of a call that is not late ends in `checked`
        exfalso
        apply hput
        rw [hphase] at hchecked
        unfold phaseAfter at hchecked
        split at hchecked <;> first | cases hchecked | skip
        · split at hchecked
          · cases hchecked
          · exact ⟨by assumption, by assumption⟩
        · split at hchecked <;> cases hchecked
      case h_1 => split <;> rfl
      all_goals rfl
    rw [hdb]
    simp [hput]

theorem Follows.move {r : Race} {schedule : List Side} {s : RaceState} (h : r.Follows schedule s)
    (turn : Side) : r.Follows (schedule ++ [turn]) (r.move ownMutex s turn) where
  phase side := by
    by_cases hside : side = turn
    · subst hside
      exact h.phase_turn side
    · rw [phase_move_of_ne r hside, phaseAfter_other r hside]
      exact h.phase side
  found k := by
    rw [h.found_turn, h.found]
    simp only [put_concat]
    constructor
    · rintro (⟨side, hk, hput⟩ | ⟨hk, hput⟩)
      · exact ⟨side, hk, .inl hput⟩
      · exact ⟨turn, hk, .inr ⟨rfl, hput⟩⟩
    · rintro ⟨side, hk, hput | ⟨rfl, hput⟩⟩
      · exact .inl ⟨side, hk, hput⟩
      · exact .inr ⟨hk, hput⟩
  held side hcount := by
    rw [count_concat] at hcount
    have hne : turn ≠ side := fun he => by simp [he] at hcount
    rw [if_neg hne] at hcount
    have hmutex : ownMutex side ≠ ownMutex turn := by
      revert hne
      cases side <;> cases turn <;> decide
    have hheld := h.held side hcount
    unfold Race.move
    split
    case h_1 =>
      split
      · exact hheld
      · exact (Function.update_of_ne hmutex _ _).trans hheld
    case h_6 => exact (Function.update_of_ne hmutex _ _).trans hheld
    case h_7 => exact (Function.update_of_ne hmutex _ _).trans hheld
    all_goals exact hheld

/-- Without an entry of another node the turns say everything. -/
theorem follows_exec {db : Db}
    (h : ∀ side, ¬ IndexManager.hasDuplicate r.rt db r.index (r.node side)) (schedule : List Side) :
    r.Follows schedule (r.exec db schedule) := by
  induction schedule using List.reverseRecOn with
  | nil =>
    refine ⟨fun side => rfl, fun k => ?_, fun side _ => rfl⟩
    show k ∈ r.found db ↔ _
    simp [r.found_eq_nil h]
  | append_singleton schedule turn ih =>
    rw [exec_concat]
    exact ih.move turn

/-- A call that has ended has succeeded unless it was late. -/
theorem Follows.done_iff {r : Race} {schedule : List Side} {s : RaceState} (h : r.Follows schedule s)
    (hend : Finished s) (side : Side) : s.phase side = .done true ↔ ¬ Late side schedule := by
  classical
  obtain ⟨ok, hok⟩ := hend side
  have hphase := h.phase side
  rw [hok] at hphase
  rw [hok]
  unfold phaseAfter at hphase
  split at hphase
  · cases hphase
  · cases hphase
  · cases hphase
  · split at hphase <;> cases hphase
  · split at hphase
    · cases hphase
      simpa
    · cases hphase
  · cases hphase
    simp

/-- **At most one of two calls succeeds** exactly when there was an entry of another node for one of
them, or one of them put its entry before the other one opened its scan. -/
theorem atMostOne_iff {db : Db} {schedule : List Side} (hend : Finished (r.exec db schedule)) :
    AtMostOne (r.exec db schedule) ↔
      (∃ side, IndexManager.hasDuplicate r.rt db r.index (r.node side)) ∨
        ∃ side, Late side schedule := by
  by_cases hdup : ∃ side, IndexManager.hasDuplicate r.rt db r.index (r.node side)
  · refine iff_of_true (fun hboth => ?_) (.inl hdup)
    obtain ⟨side, hside⟩ := hdup
    have hdoomed := r.doomed_exec hside schedule
    rw [Doomed, hboth side] at hdoomed
    exact hdoomed
  · have hfollows := r.follows_exec (fun side hside => hdup ⟨side, hside⟩) schedule
    simp [AtMostOne, hdup, hfollows.done_iff hend]

/-! ## One call alone -/

/-- What `index_node` does on a unique index. -/
theorem indexNode_eq (side : Side) (db : Db) :
    IndexManager.indexNode r.rt r.index (r.node side) db =
      if IndexManager.hasDuplicate r.rt db r.index (r.node side) then
        ⟨.error (.uniqueViolation ("index '" ++ r.index.name ++ "': duplicate value for node " ++
          (r.node side).id.uuid.toString)), []⟩
      else ⟨.ok (), [[.put .propIndex (r.key side) []]]⟩ := by
  have hread : ((Journaled.read fun db =>
      .ok (IndexManager.hasDuplicate r.rt db r.index (r.node side)) : StorageM Bool) db).result =
        .ok (IndexManager.hasDuplicate r.rt db r.index (r.node side)) := rfl
  rw [IndexManager.indexNode, if_pos r.isUnique, Journaled.bind_ok hread]
  cases IndexManager.hasDuplicate r.rt db r.index (r.node side) <;> rfl

/-- Reading the keys of the scan, one after the other. -/
theorem exec_scanning (side : Side) (rest : List Bytes) (s : RaceState)
    (h : s.phase side = .scanning rest) :
    ∃ n, (List.replicate n side).foldl (r.move ownMutex) s = { s with
      phase := Function.update s.phase side
        (if rest.any (r.isOther side) then .rejected else .checked) } := by
  induction rest generalizing s with
  | nil => exact ⟨1, by simp [move, h]⟩
  | cons k rest ih =>
    by_cases hk : r.isOther side k
    · exact ⟨1, by simp [move, h, hk]⟩
    · obtain ⟨n, hn⟩ := ih ⟨s.db, Function.update s.phase side (.scanning rest), s.held⟩
        (Function.update_self _ _ _)
      refine ⟨n + 1, ?_⟩
      rw [List.replicate_succ, List.foldl_cons]
      simpa [move, h, hk] using hn

/-- A call that runs alone answers what `index_node` answers, and leaves what it leaves. -/
theorem exec_alone (db : Db) (side : Side) :
    ∃ n, (r.exec db (List.replicate n side)).phase side =
        .done ((IndexManager.indexNode r.rt r.index (r.node side) db).result matches .ok _) ∧
      (r.exec db (List.replicate n side)).db =
        (IndexManager.indexNode r.rt r.index (r.node side)).exec db := by
  have hdup : (r.found db).any (r.isOther side) =
      IndexManager.hasDuplicate r.rt db r.index (r.node side) := by
    rw [Bool.eq_iff_iff, r.hasDuplicate_iff, List.any_eq_true]
  set opened : RaceState := ⟨db, Function.update (fun _ => .start) side (.scanning (r.found db)),
    Function.update (fun _ => false) (ownMutex side) true⟩ with hopened
  obtain ⟨n, hn⟩ := r.exec_scanning side (r.found db) opened (by simp [hopened])
  refine ⟨2 + n + 2, ?_⟩
  have hstart : (List.replicate 2 side).foldl (r.move ownMutex) (initial db) = opened := by
    simp [move, initial, hopened, List.replicate_succ]
  have hexec : r.exec db (List.replicate (2 + n + 2) side) =
      (List.replicate 2 side).foldl (r.move ownMutex) { opened with
        phase := Function.update opened.phase side
          (if (r.found db).any (r.isOther side) then .rejected else .checked) } := by
    rw [exec, List.replicate_add, List.replicate_add, List.foldl_append, List.foldl_append, hstart, hn]
  rw [hexec, hdup]
  rw [Journaled.exec, indexNode_eq]
  cases IndexManager.hasDuplicate r.rt db r.index (r.node side) with
  | true => exact ⟨by simp [move, List.replicate_succ], by simp [move, List.replicate_succ, hopened]⟩
  | false =>
    refine ⟨by simp [move, List.replicate_succ], ?_⟩
    simp [move, List.replicate_succ, hopened]
    rfl

end Race

/-! ## Both calls succeed -/

/-- A person with `p = 1`. -/
def holder (id : NodeId) : Node :=
  { person with id := id, properties := Std.ExtTreeMap.ofList [("p", .integer 1)] _ }

/-- Two persons with `p = 1`, and a unique index over `p`. -/
def holders : Race where
  rt := sampleRuntime
  index := ⟨"p_unique", sampleGraph, .node, ["p"], true⟩
  isUnique := rfl
  node
    | .left => holder ⟨sampleId 1⟩
    | .right => holder ⟨sampleId 2⟩
  distinct := by decide
  sameValues := rfl

/-- The right call starts when the left one has ended. -/
def oneAfterOther : List Side := List.replicate 5 .left ++ List.replicate 4 .right

theorem atMostOne_oneAfterOther :
    Race.Finished (holders.exec Db.empty oneAfterOther) ∧
      Race.AtMostOne (holders.exec Db.empty oneAfterOther) := by
  have hend : Race.Finished (holders.exec Db.empty oneAfterOther) := by
    rintro (_ | _)
    · exact ⟨true, by decide⟩
    · exact ⟨false, by decide⟩
  refine ⟨hend, (holders.atMostOne_iff hend).mpr (.inr ⟨.right, List.replicate 4 .left, ?_⟩)⟩
  decide

/-- Both calls lock and open their scans, then the left one goes on to its end, then the right one. -/
def bothScanFirst : List Side :=
  [.left, .right, .left, .right] ++ List.replicate 3 .left ++ List.replicate 3 .right

theorem not_atMostOne_bothScanFirst :
    Race.Finished (holders.exec Db.empty bothScanFirst) ∧
      ¬ Race.AtMostOne (holders.exec Db.empty bothScanFirst) := by
  have hboth : ∀ side, (holders.exec Db.empty bothScanFirst).phase side = .done true := by
    rintro (_ | _) <;> decide
  exact ⟨fun side => ⟨true, hboth side⟩, fun h => h hboth⟩

end Synaptica.Storage
