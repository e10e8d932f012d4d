import Synaptica.Lib.Chunks
import Synaptica.Server.Dispatch

/-!
# Streaming the rows of a response

`chunk_rows` of `synaptica_server::client_service` splits a response into a stream of smaller ones.
Which chunk carries the statistics is computed from its number, without looking whether another one
follows; `chunkRows_lossless` says that the two agree.
-/

namespace Synaptica.Server

/-- Split a query response into stream chunks of at most `chunk_size` rows.
An error response or an empty result is a single chunk. -/
def chunkRows (response : QueryResponse) (chunkSize : Nat) : List QueryResponse :=
  let chunkSize := max chunkSize 1
  if response.error.isSome || response.rows.isEmpty then [response]
  else
    let total := response.rows.length
    (Chunks.chunks chunkSize response.rows).mapIdx fun i chunk =>
      let last := decide (total ≤ (i + 1) * chunkSize)
      ⟨response.columns, chunk, if last then response.stats else none, none⟩

variable {response : QueryResponse} {chunkSize : Nat}

/-! ## The two kinds of responses -/

theorem chunkRows_single (h : response.error.isSome ∨ response.rows = []) :
    chunkRows response chunkSize = [response] := by
  unfold chunkRows
  rw [if_pos]
  rcases h with herror | hrows
  · simp [herror]
  · simp [hrows]

/-- The chunks of a response with rows and without an error, one for each piece of its rows. -/
theorem chunkRows_pieces (herror : response.error = none) (hrows : response.rows ≠ []) :
    chunkRows response chunkSize =
      (Chunks.chunks (max chunkSize 1) response.rows).mapIdx fun i chunk =>
        ⟨response.columns, chunk,
          if response.rows.length ≤ (i + 1) * max chunkSize 1 then response.stats else none, none⟩ := by
  unfold chunkRows
  rw [if_neg (by simp [herror, hrows])]
  simp

/-- The chunk that is last by arithmetic is the last of the list. -/
theorem length_le_iff_last {i : Nat}
    (hi : i < (Chunks.chunks (max chunkSize 1) response.rows).length) :
    response.rows.length ≤ (i + 1) * max chunkSize 1 ↔
      i + 1 = (Chunks.chunks (max chunkSize 1) response.rows).length := by
  have hnext : i + 1 < (Chunks.chunks (max chunkSize 1) response.rows).length ↔ _ :=
    Chunks.lt_length_chunks_iff (by omega)
  omega

/-- The arithmetic stays within 64 bits: a vector holds fewer than `2 ^ 63` rows. -/
theorem chunk_end_lt {i : Nat} (hrows : response.rows.length < 2 ^ 63) (hsize : chunkSize < 2 ^ 64)
    (hi : i < (Chunks.chunks (max chunkSize 1) response.rows).length) :
    (i + 1) * max chunkSize 1 < 2 ^ 64 := by
  have hstart := (Chunks.lt_length_chunks_iff (by omega)).mp hi
  have hend := Chunks.end_le hstart
  omega

/-! ## Nothing is lost -/

theorem map_rows_chunkRows (herror : response.error = none) (hrows : response.rows ≠ []) :
    (chunkRows response chunkSize).map (·.rows) =
      Chunks.chunks (max chunkSize 1) response.rows := by
  rw [chunkRows_pieces herror hrows]
  apply List.ext_getElem
  · simp
  · intro i h h'
    simp

/-- **Chunking loses nothing.** The rows of the chunks are the rows of the response in order, under
its columns; without an error no chunk is too long; with rows and without an error none is empty,
and the last chunk alone carries the statistics; every other response is its own single chunk,
whatever its length. -/
theorem chunkRows_lossless (response : QueryResponse) (chunkSize : Nat) :
    chunkRows response chunkSize ≠ [] ∧
      (chunkRows response chunkSize).flatMap (·.rows) = response.rows ∧
      (∀ chunk ∈ chunkRows response chunkSize, chunk.columns = response.columns) ∧
      (response.error = none →
        ∀ chunk ∈ chunkRows response chunkSize, chunk.rows.length ≤ max 1 chunkSize) ∧
      (response.error = none → response.rows ≠ [] →
        (∀ i chunk, (chunkRows response chunkSize)[i]? = some chunk →
          chunk.stats =
            if i + 1 = (chunkRows response chunkSize).length then response.stats else none) ∧
          ∀ chunk ∈ chunkRows response chunkSize, chunk.rows ≠ []) ∧
      (response.error.isSome ∨ response.rows = [] → chunkRows response chunkSize = [response]) := by
  by_cases h : response.error.isSome ∨ response.rows = []
  · rw [chunkRows_single h]
    refine ⟨by simp, by simp, by simp, ?_, ?_, fun _ => rfl⟩
    · intro herror
      have hrows : response.rows = [] := by simpa [herror] using h
      simp [hrows]
    · intro herror hrows
      simp [herror, hrows] at h
  · obtain ⟨herror, hrows⟩ : response.error = none ∧ response.rows ≠ [] := by simpa using h
    have hmap : (chunkRows response chunkSize).map (·.rows) = _ := map_rows_chunkRows herror hrows
    have hflat : (chunkRows response chunkSize).flatMap (·.rows) = response.rows := by
      rw [List.flatMap_def, hmap, Chunks.flatten_chunks]
    -- A fact about every piece is a fact about the rows of every chunk.
    have hpiece : ∀ chunk ∈ chunkRows response chunkSize,
        chunk.rows ∈ Chunks.chunks (max chunkSize 1) response.rows := by
      intro chunk hchunk
      rw [← hmap]
      exact List.mem_map_of_mem hchunk
    refine ⟨?_, hflat, ?_, ?_, ?_, fun hor => absurd hor h⟩
    · intro hnil
      rw [hnil] at hflat
      exact hrows hflat.symm
    · rw [chunkRows_pieces herror hrows]
      intro chunk hchunk
      obtain ⟨i, hi, rfl⟩ := List.mem_mapIdx.mp hchunk
      rfl
    · intro _ chunk hchunk
      rw [max_comm]
      exact Chunks.length_le_of_mem_chunks (by omega) (hpiece chunk hchunk)
    · intro _ _
      refine ⟨?_, fun chunk hchunk => Chunks.ne_nil_of_mem_chunks (hpiece chunk hchunk)⟩
      rw [chunkRows_pieces herror hrows]
      intro i chunk hget
      obtain ⟨hi, rfl⟩ := List.getElem?_eq_some_iff.mp hget
      rw [List.length_mapIdx] at hi ⊢
      rw [List.getElem_mapIdx]
      exact if_congr (length_le_iff_last hi) rfl rfl

/-- A response that has an error and two rows. -/
def failedWithRows : QueryResponse := ⟨["n"], [[.integer 1], [.integer 2]], none, some "stopped"⟩

/-- Its single chunk is longer than the chunk size asked for. -/
theorem chunkRows_error_too_long :
    ¬ ∀ chunk ∈ chunkRows failedWithRows 1, chunk.rows.length ≤ max 1 1 := by
  decide

end Synaptica.Server
