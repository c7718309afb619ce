import Mathlib
import Morgan.Kvstore.IoUtils
import Morgan.Kvstore.Store

/-!
# The write log

`writelog.rs`.  `log` writes each record `(key, commit, data)` with bincode into a `CRCWriter` of
`BLOCK_SIZE` blocks, and `sync` flushes it, after every write under the default config;
`materialize` maps the bytes written out and `read_log` reads records off a `CRCReader` over them
until one fails to read, inserting each into a map.

Reading is a program on the reader (`readRecord`); each read takes what it hands out off what is
left of the reader (`CRCReader.Shrinks`), which makes `read_log`'s loop end, and on a reader
that streams a record's bytes it hands the record back (`readRecord_streams`).  With every write
synced, the blocks written out stream every record logged since the last reset
(`WriteLog.foldl_apply_holds`), so `materialize` is the map of the records, the last of each key
winning (`WriteLog.materialize_foldl_apply`), which is the store's own `materialize`
(`WriteLog.materialize_refines`).  Without syncing, records stay in the block being filled and
`materialize` does not see them (`WriteLog.materialize_foldl_apply_unsynced`).

The file and the memory log hold the same bytes, and `fsync` changes none, so the model keeps the
writer's bytes for both.
-/

namespace Morgan

namespace Kvstore

open Bincode


variable {κ : Type}

/-! ## Records -/

/-- How a key is written: `KEY_LEN` bytes that give it back, as the source's `Key([u8; 24])` is
written by bincode. -/
structure KeyCodec (κ : Type) where
  toBytes : κ → List UInt8
  ofBytes : List UInt8 → κ
  length_toBytes : ∀ key, (toBytes key).length = KEY_LEN
  ofBytes_toBytes : ∀ key, ofBytes (toBytes key) = key

/-- Keys of one byte, written as the first of a key's bytes. -/
def byteKeys : KeyCodec (Fin 256) where
  toBytes key := UInt8.ofNat key.val :: List.replicate 23 0
  ofBytes bytes := ⟨(bytes.headD 0).toNat, UInt8.toNat_lt _⟩
  length_toBytes _ := rfl
  ofBytes_toBytes key := by
    ext
    simp

/-- Bincode's `(key, commit, data)`: the key's bytes, the commit id as an `i64`, and the data as
an `Option<&[u8]>`, a tag, then the length as a `u64` and the bytes. -/
def encodeRecord (codec : KeyCodec κ) (key : κ) (commit : Int64) (data : Option (List UInt8)) :
    List UInt8 :=
  codec.toBytes key ++ encodeU64 commit.toUInt64 ++
    match data with
    | none => [0]
    | some bytes => [1] ++ encodeU64 (UInt64.ofNat bytes.length) ++ bytes

/-- An `i64` read from its eight bytes. -/
def decodeI64 (bytes : List UInt8) : Int64 := (UInt64.ofNat (ofLittleEndian bytes)).toInt64

/-! ## The log -/

/-- `writelog::Config`. -/
structure LogConfig where
  useFsync : Bool
  syncEveryWrite : Bool
  deriving DecidableEq, Repr

/-- `Config::default`: a sync after every write, without `fsync`. -/
def LogConfig.default : LogConfig := ⟨false, true⟩

/-- `BLOCK_SIZE`, the chunk size of the log's blocks. -/
def BLOCK_SIZE : Nat := 32 * 1024

/-- `Logger::memory` and `Logger::disk` on an emptied file: a block writer over nothing yet. -/
def Logger.new : CRCWriter := CRCWriter.create BLOCK_SIZE (by decide)

/-- `WriteLog`: the logger's writer and the config.  The file and the memory log alike keep what
the writer gives them. -/
structure WriteLog where
  logger : CRCWriter
  config : LogConfig
  inMemory : Bool

namespace WriteLog

/-- `WriteLog::memory`. -/
def memory (config : LogConfig) : WriteLog := ⟨Logger.new, config, true⟩

/-- `WriteLog::reset`: a new logger over an emptied file, or over new memory. -/
def reset (wl : WriteLog) : WriteLog := { wl with logger := Logger.new }

/-- `log`: bincode writes the fields of the record in turn, which is one write of their bytes
(`CRCWriter.write_append`). -/
def log (logger : CRCWriter) (codec : KeyCodec κ) (key : κ) (commit : Int64)
    (data : Option (List UInt8)) : CRCWriter :=
  logger.write (encodeRecord codec key commit data)

/-- `sync`: the logger is flushed; the file's `fsync` or `fdatasync` changes no byte. -/
def syncLogger (logger : CRCWriter) : CRCWriter := logger.flush

/-- `log_put`. -/
def logPut (wl : WriteLog) (codec : KeyCodec κ) (key : κ) (ts : Int64) (val : List UInt8) :
    WriteLog :=
  let logger := log wl.logger codec key ts (some val)
  { wl with logger := if wl.config.syncEveryWrite then syncLogger logger else logger }

/-- `log_delete`. -/
def logDelete (wl : WriteLog) (codec : KeyCodec κ) (key : κ) (ts : Int64) : WriteLog :=
  let logger := log wl.logger codec key ts none
  { wl with logger := if wl.config.syncEveryWrite then syncLogger logger else logger }

/-- `WriteLog::sync`. -/
def sync (wl : WriteLog) : WriteLog := { wl with logger := syncLogger wl.logger }

end WriteLog

/-! ## Reading the log back -/

namespace CRCReader

/-- `read_exact` on the reader: `n` bytes, or `none` on an error. -/
def readExact (n : Nat) : StateT CRCReader Option (List UInt8) := fun r =>
  match r.read n with
  | (r', .ok bytes) => some (bytes, r')
  | (_, .error _) => none

/-- `n` bytes read one `u8` at a time, as bincode reads a byte array and the elements of a
`Vec<u8>`. -/
def readU8s (n : Nat) : StateT CRCReader Option (List UInt8) :=
  List.flatten <$> (List.replicate n ()).mapM fun _ => readExact 1

end CRCReader

/-- `bincode::deserialize_from` of a record `(Key, i64, Option<Vec<u8>>)`: the key, the commit id,
the tag, and for `Some` the length and the data; a tag other than 0 and 1 is an error. -/
def readRecord (codec : KeyCodec κ) : StateT CRCReader Option (LogRecord κ) := do
  let key ← CRCReader.readU8s KEY_LEN
  let commit ← CRCReader.readExact 8
  let tag ← CRCReader.readExact 1
  match tag with
  | [0] => pure (codec.ofBytes key, (decodeI64 commit).toInt, none)
  | [1] =>
    let len ← CRCReader.readExact 8
    let data ← CRCReader.readU8s (ofLittleEndian len)
    pure (codec.ofBytes key, (decodeI64 commit).toInt, some data)
  | _ => failure

/-! ## The loop of `read_log` ends -/

namespace CRCReader

/-- A program on the reader that, where it succeeds, leaves at least `k` bytes less to read. -/
def Shrinks {α : Type} (prog : StateT CRCReader Option α) (k : Nat) : Prop :=
  ∀ r a r', prog.run r = some (a, r') → r'.measure + k ≤ r.measure

section Shrinks

variable {α β : Type}

theorem Shrinks.pure (a : α) : Shrinks (Pure.pure a) 0 := by
  intro r b r' h
  cases h
  exact le_rfl

theorem Shrinks.failure {k : Nat} :
    Shrinks (Alternative.failure : StateT CRCReader Option α) k := by
  intro r a r' h
  cases h

theorem Shrinks.mono {prog : StateT CRCReader Option α} {j k : Nat} (h : Shrinks prog k)
    (hjk : j ≤ k) : Shrinks prog j := fun r a r' hrun => by
  have := h r a r' hrun
  omega

theorem Shrinks.bind {x : StateT CRCReader Option α} {f : α → StateT CRCReader Option β}
    {j k : Nat} (hx : Shrinks x j) (hf : ∀ a, Shrinks (f a) k) : Shrinks (x >>= f) (j + k) := by
  intro r b r' h
  rw [StateT.run_bind] at h
  obtain ⟨⟨a, r₁⟩, h₁, h₂⟩ := Option.bind_eq_some_iff.1 h
  have := hx r a r₁ h₁
  have := hf a r₁ b r' h₂
  omega

theorem Shrinks.map {x : StateT CRCReader Option α} {k : Nat} (hx : Shrinks x k) (f : α → β) :
    Shrinks (f <$> x) k := by
  intro r b r' h
  rw [StateT.run_map, Option.map_eq_map, Option.map_eq_some_iff] at h
  obtain ⟨⟨a, r₁⟩, h₁, h₂⟩ := h
  cases h₂
  exact hx _ _ _ h₁

end Shrinks

theorem readExact_shrinks (n : Nat) : Shrinks (readExact n) n := by
  intro r bytes r' h
  change (match r.read n with
    | (r', .ok bytes) => some (bytes, r')
    | (_, .error _) => none) = some (bytes, r') at h
  rcases hread : r.read n with ⟨r₁, _ | out⟩ <;> rw [hread] at h
  · cases h
  · cases h
    simpa using (readLoop_measure (Nat.zero_le n) hread).2

theorem readU8s_shrinks (n : Nat) : Shrinks (readU8s n) n := by
  refine Shrinks.map ?_ _
  induction n with
  | zero => exact Shrinks.pure _
  | succ n ih =>
    rw [List.replicate_succ, List.mapM_cons]
    refine (Shrinks.bind (readExact_shrinks 1) fun _ =>
      Shrinks.bind ih fun _ => Shrinks.pure _).mono ?_
    omega

end CRCReader

/-- A record read takes at least its key, commit id and tag off what is left. -/
theorem readRecord_shrinks (codec : KeyCodec κ) :
    CRCReader.Shrinks (readRecord codec) (KEY_LEN + 8 + 1) := by
  unfold readRecord
  refine CRCReader.Shrinks.mono (k := KEY_LEN + (8 + (1 + 0)))
    (CRCReader.Shrinks.bind (CRCReader.readU8s_shrinks _) fun _ =>
      CRCReader.Shrinks.bind (CRCReader.readExact_shrinks _) fun _ =>
        CRCReader.Shrinks.bind (CRCReader.readExact_shrinks _) fun tag => ?_) le_rfl
  -- the tag decides whether data follows; either way nothing is given back
  split
  · exact CRCReader.Shrinks.pure _
  · exact (CRCReader.Shrinks.bind (CRCReader.readExact_shrinks _) fun len =>
      -- how much data follows is read from the log
      CRCReader.Shrinks.bind ((CRCReader.readU8s_shrinks (ofLittleEndian len)).mono
        (Nat.zero_le _)) fun _ => CRCReader.Shrinks.pure _).mono (Nat.zero_le _)
  · exact CRCReader.Shrinks.failure

section ReadLog

variable [LinearOrder κ]

/-- The loop of `read_log`: records are read and inserted into the map until one fails to read. -/
def readLogLoop (codec : KeyCodec κ) (r : CRCReader) (map : SortedMap κ Value) :
    SortedMap κ Value :=
  match h : (readRecord codec).run r with
  | some ((key, commit, data), r') => readLogLoop codec r' (map.insert key ⟨commit, data⟩)
  | none => map
termination_by r.measure
decreasing_by
  have := readRecord_shrinks codec r _ r' h
  omega

/-- `read_log`: the log's bytes read through a `CRCReader` of `BLOCK_SIZE` blocks. -/
def readLog (codec : KeyCodec κ) (logBuf : List UInt8) : SortedMap κ Value :=
  readLogLoop codec (CRCReader.create logBuf BLOCK_SIZE) []

/-- `WriteLog::materialize`: the memory map of the bytes the logger's writer holds, which fails
on none, read as a log. -/
def WriteLog.materialize (wl : WriteLog) (codec : KeyCodec κ) :
    Except Error (SortedMap κ Value) :=
  if wl.logger.writer.isEmpty then .error .io else .ok (readLog codec wl.logger.writer)

end ReadLog

/-! ## Reading a stream of records -/

namespace CRCReader

/-- `read_exact` of the next bytes of the stream. -/
theorem readExact_streams {r : CRCReader} {bytes rest : List UInt8}
    (h : r.Streams (bytes ++ rest)) :
    ∃ r', (readExact bytes.length).run r = some (bytes, r') ∧ r'.Streams rest := by
  obtain ⟨hbytes, hstreams⟩ := read_streams h bytes.length
  rw [streamRead_append] at hbytes hstreams
  rcases hread : r.read bytes.length with ⟨r', out⟩
  rw [hread] at hbytes hstreams
  cases hbytes
  exact ⟨r', by simp only [StateT.run, readExact, hread], hstreams⟩

/-- `read_exact` past the end of the stream fails. -/
theorem readExact_of_lt {r : CRCReader} {s : List UInt8} (h : r.Streams s) {n : Nat}
    (hn : s.length < n) : (readExact n).run r = none := by
  have hbytes := (read_streams h n).1
  rw [streamRead, if_neg (by omega)] at hbytes
  rcases hread : r.read n with ⟨r', out⟩
  rw [hread] at hbytes
  cases hbytes
  simp only [StateT.run, readExact, hread]

/-- Bytes read one at a time are the next bytes of the stream. -/
theorem readU8s_streams {r : CRCReader} {bytes rest : List UInt8}
    (h : r.Streams (bytes ++ rest)) :
    ∃ r', (readU8s bytes.length).run r = some (bytes, r') ∧ r'.Streams rest := by
  -- each read hands out a list of one byte
  suffices hsingles : ∀ {r : CRCReader} (bytes : List UInt8), r.Streams (bytes ++ rest) →
      ∃ r', ((List.replicate bytes.length ()).mapM fun _ => readExact 1).run r =
        some (bytes.map ([·]), r') ∧ r'.Streams rest by
    obtain ⟨r', hrun, hr'⟩ := hsingles bytes h
    refine ⟨r', ?_, hr'⟩
    rw [readU8s, StateT.run_map, hrun]
    rw [Option.map_eq_map, Option.map_some, ← List.flatMap_def, List.flatMap_singleton']
  intro r bytes h
  induction bytes generalizing r with
  | nil => exact ⟨r, rfl, h⟩
  | cons b bytes ih =>
    obtain ⟨r₁, h₁, hs₁⟩ := @readExact_streams r [b] (bytes ++ rest) h
    obtain ⟨r₂, h₂, hs₂⟩ := ih hs₁
    refine ⟨r₂, ?_, hs₂⟩
    rw [List.length_singleton] at h₁
    rw [List.length_cons, List.replicate_succ, List.mapM_cons]
    simp [h₁, h₂]

/-- At the end of the stream, a byte array fails to read. -/
theorem readU8s_of_nil {r : CRCReader} (h : r.Streams []) (n : Nat) :
    (readU8s (n + 1)).run r = none := by
  rw [readU8s, StateT.run_map, List.replicate_succ, List.mapM_cons, StateT.run_bind,
    readExact_of_lt h (by simp)]
  rfl

end CRCReader

/-- An `i64` reads back from its eight bytes. -/
theorem decodeI64_encodeU64 (commit : Int64) : decodeI64 (encodeU64 commit.toUInt64) = commit := by
  rw [decodeI64, ofNat_ofLittleEndian_encodeU64]
  simp

/-- A length below `2^64` reads back from its eight bytes. -/
theorem ofLittleEndian_encodeU64_ofNat {n : Nat} (h : n < 2 ^ 64) :
    ofLittleEndian (encodeU64 (UInt64.ofNat n)) = n := by
  rw [encodeU64, ofLittleEndian_toLittleEndian, UInt64.toNat_ofNat', Nat.mod_eq_of_lt h]
  norm_num
  omega

/-- A record is read back from its bytes; the data, a slice, is shorter than `2^64`. -/
theorem readRecord_streams (codec : KeyCodec κ) {r : CRCReader} {key : κ} {commit : Int64}
    {data : Option (List UInt8)} {rest : List UInt8}
    (hdata : ∀ bytes, data = some bytes → bytes.length < 2 ^ 64)
    (h : r.Streams (encodeRecord codec key commit data ++ rest)) :
    ∃ r', (readRecord codec).run r = some ((key, commit.toInt, data), r') ∧ r'.Streams rest := by
  -- the tag says whether the data follows
  cases data with
  | none =>
    rw [encodeRecord, List.append_assoc, List.append_assoc] at h
    obtain ⟨r₁, h₁, hs₁⟩ := CRCReader.readU8s_streams h
    obtain ⟨r₂, h₂, hs₂⟩ := CRCReader.readExact_streams hs₁
    rw [codec.length_toBytes] at h₁
    rw [encodeU64, length_toLittleEndian, ← encodeU64] at h₂
    obtain ⟨r₃, h₃, hs₃⟩ := CRCReader.readExact_streams hs₂
    rw [List.length_singleton] at h₃
    refine ⟨r₃, ?_, hs₃⟩
    simp [readRecord, h₁, h₂, h₃, codec.ofBytes_toBytes, decodeI64_encodeU64]
  | some bytes =>
    simp only [encodeRecord, List.append_assoc] at h
    obtain ⟨r₁, h₁, hs₁⟩ := CRCReader.readU8s_streams h
    obtain ⟨r₂, h₂, hs₂⟩ := CRCReader.readExact_streams hs₁
    rw [codec.length_toBytes] at h₁
    rw [encodeU64, length_toLittleEndian, ← encodeU64] at h₂
    obtain ⟨r₃, h₃, hs₃⟩ := CRCReader.readExact_streams hs₂
    rw [List.length_singleton] at h₃
    obtain ⟨r₄, h₄, hs₄⟩ := CRCReader.readExact_streams hs₃
    obtain ⟨r₅, h₅, hs₅⟩ := CRCReader.readU8s_streams hs₄
    rw [encodeU64, length_toLittleEndian, ← encodeU64] at h₄
    rw [← ofLittleEndian_encodeU64_ofNat (hdata bytes rfl)] at h₅
    refine ⟨r₅, ?_, hs₅⟩
    simp [readRecord, h₁, h₂, h₃, h₄, h₅, codec.ofBytes_toBytes, decodeI64_encodeU64]

/-- At the end of the stream no record is read. -/
theorem readRecord_of_nil (codec : KeyCodec κ) {r : CRCReader} (h : r.Streams []) :
    (readRecord codec).run r = none := by
  rw [readRecord, StateT.run_bind, show KEY_LEN = 23 + 1 from rfl, CRCReader.readU8s_of_nil h]
  rfl

/-! ## The log read back is the last record of each key -/

/-- A record as `log` writes it: the key, the commit id as an `i64`, and the data. -/
abbrev Logged (κ : Type) := κ × Int64 × Option (List UInt8)

/-- The bytes of a logged record. -/
def encodeLogged (codec : KeyCodec κ) (l : Logged κ) : List UInt8 :=
  encodeRecord codec l.1 l.2.1 l.2.2

/-- The data of a logged record is a slice, shorter than the `u64` its length is written as. -/
def Logged.Fits (l : Logged κ) : Prop := ∀ bytes, l.2.2 = some bytes → bytes.length < 2 ^ 64

/-- The entry a logged record gives in the map `read_log` builds. -/
def Logged.entry (l : Logged κ) : κ × Value := (l.1, ⟨l.2.1.toInt, l.2.2⟩)

/-- The record of the store's log that a logged record stands for. -/
def Logged.toRecord (l : Logged κ) : LogRecord κ := (l.1, l.2.1.toInt, l.2.2)

section ReadBack

variable [LinearOrder κ]

/-- The loop of `read_log` over a stream of records reads each and inserts it, and stops at the
stream's end. -/
theorem readLogLoop_streams (codec : KeyCodec κ) (records : List (Logged κ))
    (hfits : ∀ l ∈ records, l.Fits) :
    ∀ {r : CRCReader} (map : SortedMap κ Value),
      r.Streams (records.flatMap (encodeLogged codec)) →
        readLogLoop codec r map = map.append (records.map Logged.entry) := by
  induction records with
  | nil =>
    intro r map h
    rw [readLogLoop]
    split
    · rename_i hrun
      rw [readRecord_of_nil codec h] at hrun
      cases hrun
    · rfl
  | cons l records ih =>
    intro r map h
    obtain ⟨key, commit, data⟩ := l
    rw [List.flatMap_cons] at h
    obtain ⟨r', hrun, hr'⟩ := readRecord_streams codec (hfits _ List.mem_cons_self) h
    rw [readLogLoop]
    split
    · rename_i hrun'
      rw [hrun] at hrun'
      cases hrun'
      exact ih (fun l hl => hfits l (List.mem_cons_of_mem _ hl)) _ hr'
    · rename_i hrun'
      rw [hrun] at hrun'
      cases hrun'

/-- `read_log` of blocks whose payloads make up a stream of records. -/
theorem readLog_framed (codec : KeyCodec κ) {logBuf : List UInt8}
    {payloads : List (List UInt8)} (hframed : Framed BLOCK_SIZE logBuf payloads)
    {records : List (Logged κ)} (hfits : ∀ l ∈ records, l.Fits)
    (hflat : payloads.flatten = records.flatMap (encodeLogged codec)) :
    readLog codec logBuf = SortedMap.ofList (records.map Logged.entry) := by
  have hstreams := CRCReader.create_streams (by decide) hframed
  rw [hflat] at hstreams
  exact readLogLoop_streams codec records hfits [] hstreams

end ReadBack

/-! ## Calls on the log -/

/-- A call on the log: `log_put`, `log_delete` or `sync`. -/
inductive LogOp (κ : Type) where
  | put (key : κ) (ts : Int64) (val : List UInt8)
  | delete (key : κ) (ts : Int64)
  | sync

/-- The record a call logs. -/
def LogOp.record : LogOp κ → Option (Logged κ)
  | .put key ts val => some (key, ts, some val)
  | .delete key ts => some (key, ts, none)
  | .sync => none

/-- A call on the write log. -/
def WriteLog.apply (codec : KeyCodec κ) (wl : WriteLog) : LogOp κ → WriteLog
  | .put key ts val => wl.logPut codec key ts val
  | .delete key ts => wl.logDelete codec key ts
  | .sync => wl.sync

namespace WriteLog

theorem config_apply (codec : KeyCodec κ) (wl : WriteLog) (op : LogOp κ) :
    (wl.apply codec op).config = wl.config := by
  cases op <;> rfl

/-- A record logged, and flushed when every write is synced. -/
theorem logRecord_holds {logger : CRCWriter} {bytes : List UInt8} (h : logger.Holds bytes)
    (codec : KeyCodec κ) (key : κ) (ts : Int64) (data : Option (List UInt8)) (sync : Bool) :
    let logger' := log logger codec key ts data
    (if sync then syncLogger logger' else logger').Holds
        (bytes ++ encodeRecord codec key ts data) ∧
      (sync = true → (if sync then syncLogger logger' else logger').pending = []) := by
  intro logger'
  have hlog : logger'.Holds (bytes ++ encodeRecord codec key ts data) := CRCWriter.write_holds h
  cases sync with
  | false => exact ⟨hlog, nofun⟩
  | true => exact ⟨(CRCWriter.flush_holds hlog).1, fun _ => (CRCWriter.flush_holds hlog).2⟩

/-- A call carries its record into the logger, and with every write synced leaves no byte in
the block being filled. -/
theorem apply_holds (codec : KeyCodec κ) {wl : WriteLog} {bytes : List UInt8}
    (h : wl.logger.Holds bytes) (op : LogOp κ) :
    (wl.apply codec op).logger.Holds
        (bytes ++ (op.record.map (encodeLogged codec)).getD []) ∧
      (wl.config.syncEveryWrite = true → (wl.apply codec op).logger.pending = []) := by
  cases op with
  | put key ts val => exact logRecord_holds h codec key ts (some val) _
  | delete key ts => exact logRecord_holds h codec key ts none _
  | sync =>
    rw [LogOp.record, Option.map_none, Option.getD_none, List.append_nil]
    exact ⟨(CRCWriter.flush_holds h).1, fun _ => (CRCWriter.flush_holds h).2⟩

/-- A run of calls carries its records, in order, into the logger. -/
theorem foldl_apply_holds (codec : KeyCodec κ) (ops : List (LogOp κ)) :
    ∀ {wl : WriteLog} {bytes : List UInt8}, wl.logger.Holds bytes →
      (wl.config.syncEveryWrite = true → wl.logger.pending = []) →
      (ops.foldl (apply codec) wl).logger.Holds
          (bytes ++ (ops.filterMap LogOp.record).flatMap (encodeLogged codec)) ∧
        (wl.config.syncEveryWrite = true → (ops.foldl (apply codec) wl).logger.pending = []) := by
  induction ops with
  | nil => exact fun h hpending => ⟨by simpa using h, hpending⟩
  | cons op ops ih =>
    intro wl bytes h hpending
    obtain ⟨h', hpending'⟩ := apply_holds codec h op
    rw [← config_apply codec wl op] at hpending'
    obtain ⟨hrun, hpending''⟩ := ih h' hpending'
    rw [config_apply] at hpending''
    refine ⟨?_, hpending''⟩
    rw [List.foldl_cons]
    cases hrecord : op.record <;>
      simpa [List.filterMap_cons, hrecord, List.append_assoc] using hrun

/-- A call only adds to what the logger has written out; with every write synced it writes out
a block. -/
theorem writer_apply (codec : KeyCodec κ) (wl : WriteLog) (op : LogOp κ) :
    wl.logger.writer <+: (wl.apply codec op).logger.writer ∧
      (wl.config.syncEveryWrite = true → (wl.apply codec op).logger.writer ≠ []) := by
  -- a put and a delete write their record, and flush it when every write is synced
  have hlogged : ∀ (logger : CRCWriter) (bytes : List UInt8) (sync : Bool),
      logger.writer <+:
          (if sync then syncLogger (logger.write bytes) else logger.write bytes).writer ∧
        (sync = true →
          (if sync then syncLogger (logger.write bytes) else logger.write bytes).writer ≠ []) := by
    intro logger bytes sync
    have hwrite := CRCWriter.writer_prefix_write logger bytes
    cases sync with
    | false => exact ⟨hwrite, nofun⟩
    | true =>
      exact ⟨hwrite.trans (List.prefix_append _ _), fun _ => CRCWriter.flush_writer_ne_nil _⟩
  cases op with
  | put key ts val => exact hlogged _ _ _
  | delete key ts => exact hlogged _ _ _
  | sync => exact ⟨List.prefix_append _ _, fun _ => CRCWriter.flush_writer_ne_nil _⟩

theorem writer_prefix_foldl_apply (codec : KeyCodec κ) (ops : List (LogOp κ)) :
    ∀ wl : WriteLog, wl.logger.writer <+: (ops.foldl (apply codec) wl).logger.writer := by
  induction ops with
  | nil => exact fun wl => List.prefix_refl _
  | cons op ops ih => exact fun wl => (writer_apply codec wl op).1.trans (ih _)

/-- With every write synced, a call leaves bytes written out. -/
theorem writer_foldl_apply_ne_nil (codec : KeyCodec κ) {wl : WriteLog} {ops : List (LogOp κ)}
    (hsync : wl.config.syncEveryWrite = true) (hops : ops ≠ []) :
    (ops.foldl (apply codec) wl).logger.writer ≠ [] := by
  obtain ⟨op, ops, rfl⟩ := List.exists_cons_of_ne_nil hops
  rw [List.foldl_cons]
  exact fun hnil => (writer_apply codec wl op).2 hsync
    (List.eq_nil_of_prefix_nil (hnil ▸ writer_prefix_foldl_apply codec ops _))

theorem logger_capacity_apply (codec : KeyCodec κ) (wl : WriteLog) (op : LogOp κ) :
    (wl.apply codec op).logger.capacity = wl.logger.capacity := by
  have hlogged : ∀ (logger : CRCWriter) (bytes : List UInt8) (sync : Bool),
      (if sync then syncLogger (logger.write bytes) else logger.write bytes).capacity =
        logger.capacity := by
    intro logger bytes sync
    cases sync <;> exact CRCWriter.capacity_write logger bytes
  cases op with
  | put key ts val => exact hlogged _ _ _
  | delete key ts => exact hlogged _ _ _
  | sync => rfl

theorem logger_capacity_foldl_apply (codec : KeyCodec κ) (ops : List (LogOp κ)) :
    ∀ wl : WriteLog, (ops.foldl (apply codec) wl).logger.capacity = wl.logger.capacity := by
  induction ops with
  | nil => exact fun wl => rfl
  | cons op ops ih => exact fun wl => (ih _).trans (logger_capacity_apply codec wl op)

/-- A reset logger carries nothing: no block written out and an empty payload. -/
theorem reset_holds (wl : WriteLog) : wl.reset.logger.Holds [] ∧ wl.reset.logger.pending = [] :=
  ⟨CRCWriter.create_holds (by decide) (by decide), List.take_zero⟩

/-- Without `sync_every_write`, calls without a `sync` whose records fit in the block being
filled write nothing out. -/
theorem writer_foldl_apply_unsynced (codec : KeyCodec κ) (ops : List (LogOp κ)) :
    ∀ {wl : WriteLog}, wl.config.syncEveryWrite = false → LogOp.sync ∉ ops →
      ((ops.filterMap LogOp.record).flatMap (encodeLogged codec)).length <
        wl.logger.capacity - wl.logger.position →
      (ops.foldl (apply codec) wl).logger.writer = wl.logger.writer := by
  induction ops with
  | nil => exact fun _ _ _ => rfl
  | cons op ops ih =>
    intro wl hsync hnosync hroom
    -- a put or a delete writes its record into the block, a `sync` is not among the calls
    have hlogged : ∀ bytes : List UInt8,
        bytes.length + ((ops.filterMap LogOp.record).flatMap (encodeLogged codec)).length <
          wl.logger.capacity - wl.logger.position →
        (ops.foldl (apply codec) { wl with logger := wl.logger.write bytes }).logger.writer =
          wl.logger.writer := by
      intro bytes hbytes
      obtain ⟨hwriter, hposition⟩ := @CRCWriter.write_of_lt wl.logger bytes (by omega)
      rw [@ih { wl with logger := wl.logger.write bytes } hsync
        (fun h => hnosync (List.mem_cons_of_mem _ h))
        (by dsimp only; rw [CRCWriter.capacity_write, hposition]; omega)]
      exact hwriter
    cases op with
    | put key ts val =>
      have happly : wl.apply codec (.put key ts val) =
          { wl with logger := wl.logger.write (encodeRecord codec key ts (some val)) } := by
        simp [apply, logPut, log, hsync]
      rw [List.foldl_cons, happly]
      exact hlogged _ (by simpa [LogOp.record, encodeLogged] using hroom)
    | delete key ts =>
      have happly : wl.apply codec (.delete key ts) =
          { wl with logger := wl.logger.write (encodeRecord codec key ts none) } := by
        simp [apply, logDelete, log, hsync]
      rw [List.foldl_cons, happly]
      exact hlogged _ (by simpa [LogOp.record, encodeLogged] using hroom)
    | sync => exact absurd List.mem_cons_self hnosync

variable [LinearOrder κ]

/-- `materialize` after calls since the last reset, with every write synced: the map of the
records logged, a later record of a key replacing an earlier one.  With no call the log is empty
and its memory map fails. -/
theorem materialize_foldl_apply (codec : KeyCodec κ) (wl : WriteLog) (ops : List (LogOp κ))
    (hsync : wl.config.syncEveryWrite = true)
    (hfits : ∀ l ∈ ops.filterMap LogOp.record, l.Fits) :
    (ops.foldl (apply codec) wl.reset).materialize codec =
      if ops = [] then .error .io
      else .ok (SortedMap.ofList ((ops.filterMap LogOp.record).map Logged.entry)) := by
  obtain ⟨hnew, hpending⟩ := reset_holds wl
  obtain ⟨⟨-, payloads, hframed, hbytes⟩, hpending'⟩ :=
    foldl_apply_holds codec ops hnew (fun _ => hpending)
  -- every call was flushed, so the blocks written out hold every record
  rw [hpending' hsync, List.append_nil, List.nil_append] at hbytes
  have hcapacity : (ops.foldl (apply codec) wl.reset).logger.capacity + 8 = BLOCK_SIZE := by
    rw [logger_capacity_foldl_apply]
    rfl
  rw [hcapacity] at hframed
  unfold materialize
  split_ifs with hempty hops hops
  · rfl
  · exact absurd (List.isEmpty_iff.1 hempty) (writer_foldl_apply_ne_nil codec hsync hops)
  · subst hops
    exact absurd rfl hempty
  · rw [readLog_framed codec hframed hfits hbytes]

example :
    ([.put 3 5 [7], .delete 3 6].foldl (apply byteKeys) (memory .default).reset).materialize
      byteKeys = .ok [(3, ⟨6, none⟩)] :=
  (materialize_foldl_apply byteKeys _ _ rfl (by simp [LogOp.record, Logged.Fits])).trans rfl

/-- With every write synced, `materialize` after calls since the last reset that logged records
finds, for each key, the commit id and data of its last record. -/
theorem get?_materialize_foldl_apply (codec : KeyCodec κ) (wl : WriteLog) (ops : List (LogOp κ))
    (hsync : wl.config.syncEveryWrite = true)
    (hfits : ∀ l ∈ ops.filterMap LogOp.record, l.Fits) (hops : ops ≠ []) :
    ∃ map, (ops.foldl (apply codec) wl.reset).materialize codec = .ok map ∧
      ∀ key, map.get? key = ((ops.filterMap LogOp.record).reverse.find? (·.1 = key)).map
        fun l => (⟨l.2.1.toInt, l.2.2⟩ : Value) := by
  refine ⟨_, (materialize_foldl_apply codec wl ops hsync hfits).trans (if_neg hops), ?_⟩
  intro key
  rw [SortedMap.ofList, SortedMap.get?_append, ← List.map_reverse, List.find?_map]
  simp only [SortedMap.get?, Logged.entry, Function.comp_def, Option.map_map, List.find?_nil,
    Option.map_none, Option.or_none]
  rfl

theorem get?_materialize_foldl_apply_put_delete :
    let ops : List (LogOp (Fin 256)) := [.put 3 5 [7], .delete 3 6]
    ∃ map, (ops.foldl (apply byteKeys) (memory .default).reset).materialize byteKeys = .ok map ∧
      ∀ key, map.get? key = ((ops.filterMap LogOp.record).reverse.find? (·.1 = key)).map
        fun l => (⟨l.2.1.toInt, l.2.2⟩ : Value) :=
  get?_materialize_foldl_apply byteKeys _ _ rfl (by simp [LogOp.record, Logged.Fits]) (by simp)

/-- The write log as the store reads it back: with every write synced, `materialize` after calls
since the last reset that logged records is the store's `materialize` of those records. -/
theorem materialize_refines (codec : KeyCodec κ) (wl : WriteLog) (ops : List (LogOp κ))
    (hsync : wl.config.syncEveryWrite = true)
    (hfits : ∀ l ∈ ops.filterMap LogOp.record, l.Fits)
    (hrecords : ops.filterMap LogOp.record ≠ []) :
    (ops.foldl (apply codec) wl.reset).materialize codec =
      Kvstore.materialize ((ops.filterMap LogOp.record).map Logged.toRecord) := by
  have hops : ops ≠ [] := by
    rintro rfl
    exact hrecords rfl
  rw [materialize_foldl_apply codec wl ops hsync hfits, if_neg hops, Kvstore.materialize,
    if_neg (by simpa using hrecords), List.map_map]
  rfl

theorem materialize_refines_put_delete :
    let ops : List (LogOp (Fin 256)) := [.put 3 5 [7], .delete 3 6]
    (ops.foldl (apply byteKeys) (memory .default).reset).materialize byteKeys =
      Kvstore.materialize ((ops.filterMap LogOp.record).map Logged.toRecord) :=
  materialize_refines byteKeys _ _ rfl (by simp [LogOp.record, Logged.Fits])
    (by simp [LogOp.record])

/-- Without `sync_every_write`, records stay in the logger's block until it fills: after calls
since the last reset, none a `sync`, whose records take less than a block's payload, nothing is
written out and `materialize` fails. -/
theorem materialize_foldl_apply_unsynced (codec : KeyCodec κ) (wl : WriteLog)
    (ops : List (LogOp κ)) (hsync : wl.config.syncEveryWrite = false) (hnosync : LogOp.sync ∉ ops)
    (hroom : ((ops.filterMap LogOp.record).flatMap (encodeLogged codec)).length < BLOCK_SIZE - 8) :
    (ops.foldl (apply codec) wl.reset).materialize codec = .error .io := by
  have hwriter := @writer_foldl_apply_unsynced _ codec ops wl.reset hsync hnosync hroom
  rw [materialize, if_pos (List.isEmpty_iff.2 hwriter)]

theorem materialize_foldl_apply_unsynced_put :
    ([.put 3 5 [7]].foldl (apply byteKeys) (memory ⟨false, false⟩).reset).materialize byteKeys =
      .error .io :=
  materialize_foldl_apply_unsynced byteKeys _ _ rfl (by simp)
    (by simp [LogOp.record, encodeLogged, encodeRecord, byteKeys, encodeU64, BLOCK_SIZE])

end WriteLog

end Kvstore

end Morgan
