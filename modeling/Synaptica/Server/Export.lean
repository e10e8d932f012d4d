import Synaptica.Core.Text
import Synaptica.Lib.LossyUtf8
import Synaptica.Server.Dispatch
import Synaptica.Storage.Bincode
import Synaptica.Storage.GraphState

/-!
# Streaming an export

The `export_graph` call of `synaptica_server::client_service` cuts the bytes of an export into chunks
of 64 KB and sends each as a text of its own. A chunk that ends inside a character is not a text, and
`from_utf8_lossy` replaces what is left of the character at both sides of the cut.
`export_lossless_iff` gives the condition under which nothing is lost: a character begins at every
multiple of 64 KB.
-/

namespace Synaptica.Server

open Storage Exec Journaled

/-- `String::from_utf8_lossy`. -/
def fromUtf8Lossy (bytes : Bytes) : String := String.ofList (LossyUtf8.lossy bytes)

/-- The bytes of a chunk, but for the last one. -/
def exportChunkSize : Nat := 65536

/-- A message of the export stream: the `data` of an `ExportChunk`, or an internal error. -/
abbrev ExportMessage := Except String String

/-- The chunks of ~64KB that a text is sent in. -/
def exportChunks (text : String) : List ExportMessage :=
  (Chunks.chunks exportChunkSize (utf8 text)).map fun chunk => .ok (fromUtf8Lossy chunk)

/-- `export_graph`, the messages that are sent. -/
def Service.exportGraph (service : Service) (graphName : String) (db : Db) : List ExportMessage :=
  match StorageEngine.exportGraph service.env.rt.bin service.env.rt.formats db
      (service.resolveGraphId graphName) with
  | .ok (text, _) => exportChunks (fromUtf8Lossy (utf8 text))
  | .error e => [.error ("export failed: " ++ displayStorageError e)]

/-- The `data` fields of the messages, one after the other. -/
def received (messages : List ExportMessage) : String :=
  String.join (messages.filterMap Except.toOption)

/-! ## Texts and their bytes -/

theorem utf8_eq_encode (s : String) : utf8 s = LossyUtf8.encode s.toList := utf8_eq_flatMap s

@[simp] theorem fromUtf8Lossy_utf8 (s : String) : fromUtf8Lossy (utf8 s) = s := by
  rw [fromUtf8Lossy, utf8_eq_encode, LossyUtf8.lossy_encode, String.ofList_toList]

theorem received_exportChunks (text : String) :
    (received (exportChunks text)).toList =
      (Chunks.chunks exportChunkSize (utf8 text)).flatMap LossyUtf8.lossy := by
  unfold received exportChunks
  induction Chunks.chunks exportChunkSize (utf8 text) with
  | nil => rfl
  | cons chunk chunks ih =>
    rw [List.map_cons, List.filterMap_cons_some (f := Except.toOption) rfl, String.join_cons, String.toList_append, ih,
      List.flatMap_cons, fromUtf8Lossy, String.toList_ofList]

/-- The byte at a position says whether a character begins there. -/
theorem isValid_iff_isFirst {s : String} {n : Nat} {b : UInt8} (h : (utf8 s)[n]? = some b) :
    (String.Pos.Raw.mk n).IsValid s ↔ LossyUtf8.isFirst b := by
  obtain ⟨hn, hb⟩ := List.getElem?_eq_some_iff.mp h
  have hlt : String.Pos.Raw.mk n < s.rawEndPos := by
    simpa [utf8, String.Pos.Raw.lt_iff] using hn
  have hbyte : s.getUTF8Byte ⟨n⟩ hlt = b := hb
  rw [String.Pos.Raw.isValid_iff_isUTF8FirstByte, LossyUtf8.isFirst, decide_eq_true_iff]
  constructor
  · rintro (hend | ⟨_, hfirst⟩)
    · rw [hend, String.Pos.Raw.lt_iff] at hlt
      exact absurd hlt (lt_irrefl _)
    · rwa [hbyte] at hfirst
  · intro hfirst
    exact .inr ⟨hlt, by rwa [hbyte]⟩

/-! ## When nothing is lost -/

/-- A character of the text begins at every multiple of the chunk size. -/
def CutsBetweenCharacters (text : String) : Prop :=
  ∀ i, i * exportChunkSize < (utf8 text).length →
    (String.Pos.Raw.mk (i * exportChunkSize)).IsValid text

theorem received_exportChunks_iff (text : String) :
    received (exportChunks text) = text ↔ CutsBetweenCharacters text := by
  have hsize : 0 < exportChunkSize := by decide
  rw [← String.toList_inj, received_exportChunks,
    LossyUtf8.flatMap_lossy_iff (by rw [Chunks.flatten_chunks, utf8_eq_encode]),
    LossyUtf8.cutsBetween_chunks_iff hsize]
  constructor
  · intro h i hi
    exact (isValid_iff_isFirst (List.getElem?_eq_getElem hi)).mpr
      (h i _ (List.getElem?_eq_getElem hi))
  · intro h i b hb
    exact (isValid_iff_isFirst hb).mp (h i (List.getElem?_eq_some_iff.mp hb).1)

/-- A text that fits one chunk arrives as it is. -/
theorem received_exportChunks_of_le {text : String} (h : (utf8 text).length ≤ exportChunkSize) :
    received (exportChunks text) = text := by
  apply (received_exportChunks_iff text).mpr
  intro i hi
  obtain rfl : i = 0 := by
    by_contra hpos
    have hle : exportChunkSize ≤ i * exportChunkSize :=
      Nat.le_mul_of_pos_left _ (Nat.pos_of_ne_zero hpos)
    omega
  rw [Nat.zero_mul]
  exact String.Pos.Raw.isValid_zero

/-- **An export arrives as it was written exactly when every cut falls between two characters.** A
failed export is one error. -/
theorem export_lossless_iff (service : Service) (graphName : String) (db : Db) :
    (∀ text count,
        StorageEngine.exportGraph service.env.rt.bin service.env.rt.formats db
          (service.resolveGraphId graphName) = .ok (text, count) →
        (received (service.exportGraph graphName db) = text ↔ CutsBetweenCharacters text)) ∧
      ∀ e,
        StorageEngine.exportGraph service.env.rt.bin service.env.rt.formats db
          (service.resolveGraphId graphName) = .error e →
        service.exportGraph graphName db = [.error ("export failed: " ++ displayStorageError e)] := by
  refine ⟨?_, ?_⟩
  · intro text count h
    rw [Service.exportGraph, h, ← received_exportChunks_iff]
    simp only [fromUtf8Lossy_utf8]
  · intro e h
    rw [Service.exportGraph, h]

/-! ## A character across a cut -/

/-- A person with a name. -/
def personCalled (name : String) : Node :=
  { person with properties := Std.ExtTreeMap.ofList [("name", .string name)] _ }

/-- The exported text in front of the name, 69 bytes. -/
def exportHead : String :=
  "INSERT (:Person \x7b_id: '00000000-0000-0000-0000-000000000001', name: '"

theorem exportNode_personCalled (f : Formats) (name : String) :
    StorageEngine.exportNode f (personCalled name) = exportHead ++ (name ++ "'\x7d)\n") := by
  have hlabels : (personCalled name).labels.toList = [⟨"Person"⟩] := rfl
  have hid : (personCalled name).id.uuid.toString = "00000000-0000-0000-0000-000000000001" := by
    show person.id.uuid.toString = _
    decide
  have hentries (v : Value) : ((personCalled name).properties.insert "_id" v).toList =
      [("_id", v), ("name", .string name)] := rfl
  have hempty (v : Value) : ((personCalled name).properties.insert "_id" v).isEmpty = false := rfl
  rw [StorageEngine.exportNode, StorageEngine.formatPropertiesForExport, hlabels, hid, hempty, hentries]
  apply String.toList_inj.mp
  simp [Value.displayEntries, Value.display, String.join, exportHead, String.intercalate_cons_cons]

def letters (n : Nat) : String := String.ofList (List.replicate n 'a')

theorem length_utf8_letters (n : Nat) : (utf8 (letters n)).length = n := by
  rw [utf8_eq_encode, letters, String.toList_ofList]
  induction n with
  | zero => rfl
  | succ n ih =>
    rw [List.replicate_succ, LossyUtf8.encode_cons, List.length_append, ih, Nat.add_comm]
    rfl

/-- So many letters that the character behind them straddles the first cut. -/
theorem not_cutsBetweenCharacters {n : Nat} (hn : 69 + n + 1 = exportChunkSize) (rest : String) :
    ¬ CutsBetweenCharacters (exportHead ++ (letters n ++ "é" ++ rest)) := by
  have hbytes : utf8 (exportHead ++ (letters n ++ "é" ++ rest)) =
      (utf8 exportHead ++ utf8 (letters n)) ++ 0xC3 :: 0xA9 :: utf8 rest := by
    have hchar : utf8 "é" = [0xC3, 0xA9] := by decide
    simp [hchar]
  have hlen : (utf8 exportHead ++ utf8 (letters n)).length + 1 = 1 * exportChunkSize := by
    have hhead : (utf8 exportHead).length = 69 := by decide
    rw [List.length_append, hhead, length_utf8_letters, hn, Nat.one_mul]
  have hbyte : (utf8 (exportHead ++ (letters n ++ "é" ++ rest)))[1 * exportChunkSize]? = some 0xA9 := by
    have hindex : ∀ k : Nat, k + 1 - k = 1 := by omega
    rw [hbytes, ← hlen, List.getElem?_append_right (Nat.le_succ _), hindex]
    rfl
  intro h
  have hfirst := (isValid_iff_isFirst hbyte).mp (h 1 (List.getElem?_eq_some_iff.mp hbyte).1)
  exact absurd hfirst (by decide)

section PersonStore

variable (name : String)

/-- A server that knows one person. -/
def exportService : Service where
  env := sampleEnv (.table sampleRuntime.formats [personCalled name] [] [])
  parse _ := .error ""
  defaultGraphId := sampleGraph

/-- That person, stored. -/
def exportStore : Db :=
  exec (StorageEngine.putNode (exportService name).env.rt.bin (personCalled name)) Db.empty

theorem result_putNode_personCalled :
    (StorageEngine.putNode (exportService name).env.rt.bin (personCalled name) Db.empty).result =
      .ok () := by
  have hstale : ((Journaled.read fun db =>
      StorageEngine.staleLabels (exportService name).env.rt.bin db (personCalled name) :
        StorageM (List Label)) Db.empty).result = .ok [] := by
    show StorageEngine.staleLabels (exportService name).env.rt.bin Db.empty (personCalled name) = _
    simp [StorageEngine.staleLabels, Db.empty]
  have hvalue : ((Journaled.read fun _ =>
      serializeValue (exportService name).env.rt.bin.node (personCalled name) :
        StorageM Bytes) Db.empty).result =
          .ok (bincodeNode sampleRuntime.formats (personCalled name)) := by
    show serializeValue (exportService name).env.rt.bin.node (personCalled name) = _
    refine serializeValue_eq_ok.mpr ?_
    simp [exportService, sampleEnv, Bincode.table, Codec.ofTable]
  rw [StorageEngine.putNode, result_bind_ok hstale]
  exact result_bind_ok hvalue

theorem roundTrips_exportService :
    (exportService name).env.rt.bin.node.RoundTrips ∧ (exportService name).env.rt.bin.edge.RoundTrips := by
  have hedge : (Codec.ofTable ([] : List (Edge × Bytes))).RoundTrips :=
    Codec.ofTable_roundTrips List.nodup_nil
  exact ⟨Codec.ofTable_roundTrips (List.nodup_singleton _), hedge⟩

theorem hasNode_exportStore {n : Node} :
    HasNode (exportService name).env.rt.bin (exportStore name) sampleGraph n ↔
      n = personCalled name := by
  have hnone : ¬ HasNode (exportService name).env.rt.bin Db.empty sampleGraph n := by
    simp [HasNode, StorageEngine.getNode, Db.empty]
  rw [exportStore, hasNode_putNode (P := fun _ => True) (Q := fun _ => True)
    (roundTrips_exportService name).1 wellIndexed_empty trivial (result_putNode_personCalled name)]
  simp [hnone, personCalled, person]

theorem not_hasEdge_exportStore (e : Edge) :
    ¬ HasEdge (exportService name).env.rt.bin (exportStore name) sampleGraph e := by
  rw [exportStore, hasEdge_putNode]
  simp [HasEdge, StorageEngine.getEdge, Db.empty]

/-- The export of that server is the line of the person. -/
theorem exportGraph_exportStore :
    StorageEngine.exportGraph (exportService name).env.rt.bin (exportService name).env.rt.formats
      (exportStore name) ((exportService name).resolveGraphId "") =
        .ok (exportHead ++ (name ++ "'\x7d)\n"), 1) := by
  have hindexed : WellIndexed (exportService name).env.rt.bin (fun _ => True) (fun _ => True)
      (exportStore name) :=
    (putNode_keeps (roundTrips_exportService name).1 trivial wellIndexed_empty).exec
  have hgraph : (exportService name).resolveGraphId "" = sampleGraph := rfl
  obtain ⟨nodes, hnodes, hnodup, hmem⟩ := hindexed.exists_scanNodes sampleGraph
  obtain ⟨edges, hedges, hmemEdges⟩ := exists_scanEdges hindexed sampleGraph
  have hperm : [personCalled name].Perm nodes := by
    apply (List.perm_ext_iff_of_nodup (List.nodup_singleton _) hnodup).mpr
    intro n
    rw [hmem, hasNode_exportStore, List.mem_singleton]
  obtain rfl : [personCalled name] = nodes := List.singleton_perm.mp hperm
  obtain rfl : edges = [] := by
    apply List.eq_nil_iff_forall_not_mem.mpr
    intro e he
    exact not_hasEdge_exportStore name e ((hmemEdges e).mp he)
  rw [StorageEngine.exportGraph, hgraph, hnodes, hedges]
  simp only [Except.ok_bind, Except.pure_eq_ok, List.map_cons, List.map_nil, List.append_nil,
    exportNode_personCalled, String.join_cons, String.join_nil, String.append_empty,
    List.length_cons, List.length_nil]

end PersonStore

/-- A name behind whose letters a character straddles the first cut. -/
def straddling : String := letters 65466 ++ "é"

/-- That name does not reach the client. -/
theorem export_loses_character :
    ∃ text count,
      StorageEngine.exportGraph (exportService straddling).env.rt.bin
          (exportService straddling).env.rt.formats (exportStore straddling)
          ((exportService straddling).resolveGraphId "") = .ok (text, count) ∧
        received ((exportService straddling).exportGraph "" (exportStore straddling)) ≠ text := by
  refine ⟨_, _, exportGraph_exportStore straddling, ?_⟩
  rw [Service.exportGraph, exportGraph_exportStore]
  simp only [fromUtf8Lossy_utf8]
  intro h
  exact not_cutsBetweenCharacters (by decide) _ ((received_exportChunks_iff _).mp h)

end Synaptica.Server
