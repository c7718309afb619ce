import Mathlib
import Morgan.Lib.Bincode

/-!
# Blocks with a checksum

`io_utils.rs`: `CRCWriter` cuts what it is given into blocks of `chunk_size` bytes, each a CRC-32
and the payload's length, both big-endian `u32`s, then the payload, then whatever the block held
before.  A block goes out when its payload fills the room, `chunk_size - 8` bytes, and on every
`flush`, an empty one too.  `CRCReader` reads the blocks back, checks each one's length and CRC,
and hands out their payloads as one stream.

The reader simulates a byte stream (`CRCReader.readMany_streams`): over blocks it accepts, any run
of reads returns what the same reads of the payloads' concatenation return, the bytes asked for or,
past the end, an error.  The writer writes only blocks the reader accepts, whose payloads are the
bytes written (`CRCWriter.foldl_apply_holds`), as long as a payload's length fits the header's
`u32`; `crcReader_reads_written` puts the two together.  From `chunk_size = 2 ^ 32 + 8` on, a full
payload's length wraps (`crc_length_field_wraps`).  How the bytes are cut into calls of `write`
does not matter (`CRCWriter.write_append`).  The inner writer keeps what it is given and the inner
reader is a byte slice; neither fails.
-/

namespace Morgan

namespace Kvstore

open Bincode

/-! ## Checksums and big-endian integers -/

/-- `crc32::checksum_ieee`: the reflected CRC-32 of the IEEE 802.3 polynomial. -/
def checksumIeee (bytes : List UInt8) : UInt32 :=
  ~~~(bytes.foldl (fun crc b =>
    (List.range 8).foldl (fun c _ => if c &&& 1 = 1 then (c >>> 1) ^^^ 0xEDB88320 else c >>> 1)
      (crc ^^^ b.toUInt32)) 0xFFFFFFFF)

set_option maxRecDepth 5000 in
/-- The check value of CRC-32: the checksum of the digits `1` to `9`. -/
example : checksumIeee [49, 50, 51, 52, 53, 54, 55, 56, 57] = 0xCBF43926 := by decide

/-- `BigEndian::write_u32`: the four bytes, most significant first. -/
def encodeU32BE (x : UInt32) : List UInt8 := (toLittleEndian 4 x.toNat).reverse

/-- `BigEndian::read_u32` of four bytes. -/
def decodeU32BE (bytes : List UInt8) : UInt32 := UInt32.ofNat (ofLittleEndian bytes.reverse)

/-- `bytes` copied over `buffer` from `offset`, as a write into `&mut buffer[offset..]` does. -/
def overwrite (buffer : List UInt8) (offset : Nat) (bytes : List UInt8) : List UInt8 :=
  buffer.take offset ++ bytes ++ buffer.drop (offset + bytes.length)

/-- The `io::ErrorKind`s the reader fails with. -/
inductive IoError where
  | unexpectedEof
  | invalidData
  deriving DecidableEq, Repr

/-! ## The writer -/

/-- `CRCWriter` over a writer that keeps what it is given (a `Vec<u8>`, or a file written in
order): the bytes written out, the block being filled and the length of its payload, and the
room for a payload, `chunk_size - 8`.  A payload never fills its room between calls. -/
@[ext]
structure CRCWriter where
  writer : List UInt8
  buffer : List UInt8
  position : Nat
  capacity : Nat
  length_buffer : buffer.length = capacity + 8
  position_lt : position < capacity

/-- `CRCWriter::new` on a chunk size above 8. -/
def CRCWriter.create (chunkSize : Nat) (h : 8 < chunkSize) : CRCWriter :=
  ⟨[], List.replicate chunkSize 0, 0, chunkSize - 8, by simp; omega, by omega⟩

/-- `CRCWriter::new`: panics unless `chunk_size > 8`. -/
def CRCWriter.new (chunkSize : Nat) : Option CRCWriter :=
  if h : 8 < chunkSize then some (CRCWriter.create chunkSize h) else none

/-- What `flush` makes of a block holding `position` bytes of payload: the payload's length at
4..8, as a `u32`, and at 0..4 the CRC of the length and the payload. -/
def sealBlock (buffer : List UInt8) (position : Nat) : List UInt8 :=
  let buffer := overwrite buffer 4 (encodeU32BE (UInt32.ofNat position))
  let totalLen := position + 8
  -- crc over length + payload
  let digest := checksumIeee ((buffer.drop 4).take (totalLen - 4))
  overwrite buffer 0 (encodeU32BE digest)

theorem length_overwrite {buffer bytes : List UInt8} {offset : Nat}
    (h : offset + bytes.length ≤ buffer.length) :
    (overwrite buffer offset bytes).length = buffer.length := by
  simp only [overwrite, List.length_append, List.length_take, List.length_drop]
  omega

theorem length_encodeU32BE (x : UInt32) : (encodeU32BE x).length = 4 := by
  simp [encodeU32BE]

theorem length_sealBlock {buffer : List UInt8} (h : 8 ≤ buffer.length) (position : Nat) :
    (sealBlock buffer position).length = buffer.length := by
  have hlen : (overwrite buffer 4 (encodeU32BE (UInt32.ofNat position))).length = buffer.length :=
    length_overwrite (by rw [length_encodeU32BE]; omega)
  show (overwrite (overwrite buffer 4 _) 0 _).length = _
  rw [length_overwrite (by rw [length_encodeU32BE, hlen]; omega), hlen]

namespace CRCWriter

/-- `flush` of the block `buffer` with `position` bytes of payload, as `write` calls it on a full
block: the block is sealed and written out, and the next payload starts over its stale bytes. -/
def flushWith (w : CRCWriter) (buffer : List UInt8) (position : Nat)
    (h : buffer.length = w.capacity + 8) : CRCWriter :=
  ⟨w.writer ++ sealBlock buffer position, sealBlock buffer position, 0, w.capacity,
    by rw [length_sealBlock (by omega), h], by have := w.position_lt; omega⟩

/-- `flush`: the block is written out, an empty one too. -/
def flush (w : CRCWriter) : CRCWriter := w.flushWith w.buffer w.position w.length_buffer

/-- The block `buffer`, its payload `position` bytes long, after a round of `write`'s loop: a full
payload is flushed. -/
def place (w : CRCWriter) (buffer : List UInt8) (position : Nat)
    (h : buffer.length = w.capacity + 8) : CRCWriter :=
  if hfull : w.capacity ≤ position then w.flushWith buffer position h
  else ⟨w.writer, buffer, position, w.capacity, h, Nat.lt_of_not_le hfull⟩

theorem length_overwrite_batch (w : CRCWriter) (bytes : List UInt8) :
    (overwrite w.buffer (8 + w.position) (bytes.take (w.capacity - w.position))).length =
      w.capacity + 8 := by
  have := w.position_lt
  rw [length_overwrite (by rw [List.length_take, w.length_buffer]; omega), w.length_buffer]

/-- One round of `write`'s loop: what fits of `bytes` goes into the block after the payload, and a
block whose payload is full is flushed. -/
def writeStep (w : CRCWriter) (bytes : List UInt8) : CRCWriter :=
  let batch := bytes.take (w.capacity - w.position)
  w.place (overwrite w.buffer (8 + w.position) batch) (w.position + batch.length)
    (length_overwrite_batch w bytes)

/-- `write`: rounds of the loop until all of `bytes` is in the block or written out. -/
def write (w : CRCWriter) (bytes : List UInt8) : CRCWriter :=
  if bytes = [] then w
  else (w.writeStep bytes).write (bytes.drop (w.capacity - w.position))
termination_by bytes.length
decreasing_by
  have := w.position_lt
  have : 0 < bytes.length := List.length_pos_iff.2 ‹_›
  simp only [List.length_drop]
  omega

theorem write_eq (w : CRCWriter) (bytes : List UInt8) :
    w.write bytes = if bytes = [] then w
      else (w.writeStep bytes).write (bytes.drop (w.capacity - w.position)) := by
  rw [write]

/-- Induction over the rounds of `write`: what holds when no bytes are left, and what one round
carries back to the bytes before it, holds of every call. -/
theorem write_induction {motive : CRCWriter → List UInt8 → Prop} (nil : ∀ w, motive w [])
    (round : ∀ w bytes, bytes ≠ [] →
      motive (w.writeStep bytes) (bytes.drop (w.capacity - w.position)) → motive w bytes)
    (w : CRCWriter) (bytes : List UInt8) : motive w bytes := by
  induction w, bytes using write.induct with
  | case1 w => exact nil w
  | case2 w bytes hnil ih => exact round w bytes hnil ih

end CRCWriter

/-! ## The reader -/

/-- What `load_block` finds in a block: its payload, or why the block is refused. -/
def parseBlock (block : List UInt8) : Except IoError (List UInt8) :=
  let storedDigest := decodeU32BE (block.take 4)
  let payloadLen := (decodeU32BE ((block.drop 4).take 4)).toNat
  if payloadLen + 8 > block.length then .error .invalidData
  else
    let payload := (block.drop 8).take payloadLen
    let computedDigest := checksumIeee ((block.drop 4).take (8 + payloadLen - 4))
    if computedDigest ≠ storedDigest then .error .invalidData
    else .ok payload

/-- An accepted block's payload leaves out its header. -/
theorem parseBlock_ok_length {block payload : List UInt8} (h : parseBlock block = .ok payload) :
    payload.length + 8 ≤ block.length := by
  unfold parseBlock at h
  dsimp only at h
  split at h
  · cases h
  · split at h
    · cases h
    · cases h
      rw [List.length_take, List.length_drop]
      omega

/-- `CRCReader` over a byte slice: what is left of the slice, the payload of the last block and
the position in it, and the chunk size. -/
structure CRCReader where
  reader : List UInt8
  buffer : List UInt8
  position : Nat
  chunkSize : Nat

namespace CRCReader

/-- `CRCReader::new` on a chunk size above 8: the position is past the buffer, so the first read
loads a block. -/
def create (inner : List UInt8) (chunkSize : Nat) : CRCReader :=
  ⟨inner, List.replicate (chunkSize - 8) 0, chunkSize, chunkSize⟩

/-- `CRCReader::new`: panics unless `chunk_size > 8`. -/
def new (inner : List UInt8) (chunkSize : Nat) : Option CRCReader :=
  if 8 < chunkSize then some (create inner chunkSize) else none

/-- `load_block`: the buffer is cleared, a block is read from the slice (all that is left of it
when that is shorter), and its payload is kept if its length and CRC check. -/
def loadBlock (r : CRCReader) : CRCReader × Except IoError Unit :=
  let block := r.reader.take r.chunkSize
  let r := { r with reader := r.reader.drop r.chunkSize, buffer := [], position := 0 }
  if block.length < r.chunkSize then (r, .error .unexpectedEof)
  else
    match parseBlock block with
    | .ok payload => ({ r with buffer := payload }, .ok ())
    | .error e => (r, .error e)

/-- The head of `read`'s loop: a block is loaded once the payload is used up. -/
def fill (r : CRCReader) : CRCReader × Except IoError Unit :=
  if r.buffer.length ≤ r.position then r.loadBlock else (r, .ok ())

/-- A block loaded: the slice past it, and its payload, shorter than the block. -/
theorem loadBlock_eq_ok {r r' : CRCReader} (h : r.loadBlock = (r', .ok ())) :
    r'.reader = r.reader.drop r.chunkSize ∧ r'.position = 0 ∧ r'.chunkSize = r.chunkSize ∧
      r'.buffer.length + 8 ≤ r.chunkSize ∧ r.chunkSize ≤ r.reader.length := by
  unfold loadBlock at h
  dsimp only at h
  split at h
  · cases h
  · rename_i hlen
    split at h
    · rename_i payload hparse
      cases h
      have hpayload := parseBlock_ok_length hparse
      simp only [List.length_take] at hlen hpayload
      dsimp only
      exact ⟨rfl, rfl, rfl, by omega, by omega⟩
    · cases h

/-- A block loaded leaves less of the slice. -/
theorem loadBlock_ok {r r' : CRCReader} (h : r.loadBlock = (r', .ok ())) :
    r'.reader.length < r.reader.length := by
  obtain ⟨hreader, -, -, hpayload, hle⟩ := loadBlock_eq_ok h
  rw [hreader, List.length_drop]
  omega

theorem fill_ok {r r' : CRCReader} (h : r.fill = (r', .ok ())) :
    r'.reader.length < r.reader.length ∨ (r' = r ∧ r.position < r.buffer.length) := by
  unfold fill at h
  split at h
  · exact .inl (loadBlock_ok h)
  · cases h
    exact .inr ⟨rfl, by omega⟩

/-- The loop of `read` filling `n` bytes: bytes are copied out of the payload, a block is loaded
when the payload is used up, and an error ends the call. -/
def readLoop (r : CRCReader) (n : Nat) (out : List UInt8) :
    CRCReader × Except IoError (List UInt8) :=
  if out.length < n then
    match hfill : r.fill with
    | (r', .error e) => (r', .error e)
    | (r', .ok ()) =>
      let copy := (r'.buffer.drop r'.position).take (n - out.length)
      readLoop { r' with position := r'.position + copy.length } n (out ++ copy)
  else (r, .ok out)
termination_by r.reader.length + (n - out.length)
decreasing_by
  -- a block was loaded, and less of the slice is left, or bytes were copied
  simp only [List.length_append, List.length_take, List.length_drop]
  rcases fill_ok hfill with hlt | ⟨rfl, hpos⟩ <;> omega

/-- `read` into a buffer of `n` bytes. -/
def read (r : CRCReader) (n : Nat) : CRCReader × Except IoError (List UInt8) := r.readLoop n []

/-- What is left to read: the rest of the slice and of the payload. -/
def measure (r : CRCReader) : Nat := r.reader.length + (r.buffer.length - r.position)

theorem fill_measure {r r' : CRCReader} (h : r.fill = (r', .ok ())) : r'.measure ≤ r.measure := by
  unfold fill at h
  split at h
  · obtain ⟨hreader, hpos, -, hpayload, hle⟩ := loadBlock_eq_ok h
    simp only [measure, hreader, hpos, List.length_drop]
    omega
  · cases h
    exact le_rfl

/-- A loop of `read` that fills its `n` bytes takes what it hands out off what is left. -/
theorem readLoop_measure {r r' : CRCReader} {n : Nat} {out bytes : List UInt8}
    (hout : out.length ≤ n) (h : r.readLoop n out = (r', .ok bytes)) :
    bytes.length = n ∧ r'.measure + (n - out.length) ≤ r.measure := by
  fun_induction readLoop r n out with
  | case1 r out hlt r₁ e hfill => cases h
  | case2 r out hlt r₁ hfill copy ih =>
    -- the copy is what is left of the payload, cut to what is still asked for
    have hcopy : copy.length = min (n - out.length) (r₁.buffer.length - r₁.position) := by
      simp only [copy, List.length_take, List.length_drop]
    have hfilled := fill_measure hfill
    obtain ⟨hlen, hle⟩ := ih (by rw [List.length_append]; omega) h
    simp only [measure, List.length_append] at hle hfilled ⊢
    exact ⟨hlen, by omega⟩
  | case3 r out hge =>
    cases h
    exact ⟨by omega, by omega⟩

end CRCReader

/-! ## The reader hands out a stream -/

/-- Reading `n` bytes of a stream `s`: the next `n` bytes, or, past its end, an error that leaves
nothing of it. -/
def streamRead (s : List UInt8) (n : Nat) : List UInt8 × Except IoError (List UInt8) :=
  if n ≤ s.length then (s.drop n, .ok (s.take n)) else ([], .error .unexpectedEof)

/-- Reading `n` bytes after `c` of them were taken. -/
theorem streamRead_drop {s : List UInt8} {n c : Nat} (hc : c ≤ n) (hs : c ≤ s.length) :
    streamRead s n =
      ((streamRead (s.drop c) (n - c)).1,
        (streamRead (s.drop c) (n - c)).2.map (s.take c ++ ·)) := by
  unfold streamRead
  by_cases hn : n ≤ s.length
  · rw [if_pos hn, if_pos (by rw [List.length_drop]; omega), List.drop_drop,
      Nat.add_sub_cancel' hc]
    simp only [Except.map, Prod.mk.injEq, true_and]
    rw [← List.take_add, Nat.add_sub_cancel' hc]
  · rw [if_neg hn, if_neg (by rw [List.length_drop]; omega)]
    rfl

/-- Reading the first `bytes` of a stream. -/
theorem streamRead_append (bytes rest : List UInt8) :
    streamRead (bytes ++ rest) bytes.length = (rest, .ok bytes) := by
  simp [streamRead]

/-- Bytes made of blocks of `chunkSize` bytes that `load_block` accepts, with their payloads. -/
inductive Framed (chunkSize : Nat) : List UInt8 → List (List UInt8) → Prop
  | nil : Framed chunkSize [] []
  | cons {block rest payload : List UInt8} {payloads : List (List UInt8)} :
      block.length = chunkSize → parseBlock block = .ok payload →
      Framed chunkSize rest payloads → Framed chunkSize (block ++ rest) (payload :: payloads)

/-- A reader over blocks whose payloads, from its position on, make up the stream `s`. -/
structure CRCReader.Streams (r : CRCReader) (s : List UInt8) : Prop where
  chunkSize_pos : 0 < r.chunkSize
  framed : ∃ payloads, Framed r.chunkSize r.reader payloads ∧
    s = r.buffer.drop r.position ++ payloads.flatten

namespace CRCReader

/-- The head of the loop: the next block is loaded, or the payload is left as it is; only at the
end of the stream does it fail. -/
theorem fill_streams {r : CRCReader} {s : List UInt8} (h : r.Streams s) :
    (∃ r', r.fill = (r', .ok ()) ∧ r'.Streams s) ∨
      (s = [] ∧ r.fill = (⟨[], [], 0, r.chunkSize⟩, .error .unexpectedEof)) := by
  obtain ⟨hpos, payloads, hframed, rfl⟩ := h
  obtain ⟨reader, buffer, position, chunkSize⟩ := r
  unfold fill
  split
  · rename_i hused
    rw [List.drop_eq_nil_of_le hused, List.nil_append]
    cases hframed with
    | nil =>
      right
      refine ⟨rfl, ?_⟩
      simp [loadBlock, hpos]
    | cons hlen hparse hrest =>
      rename_i block rest payload payloads
      left
      refine ⟨⟨rest, payload, 0, chunkSize⟩, ?_, hpos, payloads, hrest, by simp⟩
      dsimp only at hlen
      simp only [List.append_eq]
      have htake : (block ++ rest).take chunkSize = block := List.take_left' hlen
      have hdrop : (block ++ rest).drop chunkSize = rest := List.drop_left' hlen
      simp only [loadBlock, htake, hdrop, hlen, lt_irrefl, if_false, hparse]
  · exact .inl ⟨_, rfl, hpos, payloads, hframed, rfl⟩

/-- Copying bytes out of the payload takes them off the front of the stream. -/
theorem copy_streams {r : CRCReader} {s : List UInt8} (h : r.Streams s) (k : Nat) :
    let copy := (r.buffer.drop r.position).take k
    s.take copy.length = copy ∧
      ({ r with position := r.position + copy.length } : CRCReader).Streams
        (s.drop copy.length) := by
  intro copy
  obtain ⟨hpos, payloads, hframed, rfl⟩ := h
  have hle : copy.length ≤ (r.buffer.drop r.position).length := by
    simp only [copy, List.length_take]
    omega
  refine ⟨?_, hpos, payloads, hframed, ?_⟩
  · rw [List.take_append_of_le_length hle]
    simp [copy]
  · rw [List.drop_append_of_le_length hle, List.drop_drop]

/-- The loop of `read` hands out the stream: the bytes asked for, or, past its end, an error. -/
theorem readLoop_streams : ∀ (m : Nat) {r : CRCReader} {s : List UInt8} {n : Nat}
    {out : List UInt8}, r.reader.length + (n - out.length) = m → r.Streams s →
      (r.readLoop n out).2 = (streamRead s (n - out.length)).2.map (out ++ ·) ∧
        (r.readLoop n out).1.Streams (streamRead s (n - out.length)).1 := by
  intro m
  induction m using Nat.strong_induction_on with
  | _ m ih =>
  intro r s n out hm h
  rw [readLoop]
  split
  · rename_i hlt
    split
    · -- the load failed: only at the end of the stream
      rename_i r' e hfill
      obtain ⟨r₁, hok, -⟩ | ⟨rfl, herr⟩ := fill_streams h
      · rw [hok] at hfill
        cases hfill
      · rw [herr] at hfill
        cases hfill
        have hpast : ¬n - out.length ≤ ([] : List UInt8).length := by
          rw [List.length_nil]
          omega
        simp only [streamRead, if_neg hpast]
        exact ⟨rfl, h.chunkSize_pos, [], .nil, rfl⟩
    · -- bytes are copied out of the payload, and the loop goes on
      rename_i r' hfill
      obtain ⟨r₁, hok, hr₁⟩ | ⟨rfl, herr⟩ := fill_streams h
      · rw [hok] at hfill
        cases hfill
        obtain ⟨htake, hstreams⟩ := copy_streams hr₁ (n - out.length)
        set copy := (r'.buffer.drop r'.position).take (n - out.length) with hcopy
        have hc : copy.length ≤ n - out.length := by
          rw [hcopy, List.length_take]
          omega
        have hs : copy.length ≤ s.length := by
          obtain ⟨-, payloads, -, rfl⟩ := hr₁
          rw [hcopy, List.length_take, List.length_append]
          omega
        have hlt' : r'.reader.length + (n - (out ++ copy).length) < m := by
          rw [← hm]
          simp only [hcopy, List.length_append, List.length_take, List.length_drop]
          rcases fill_ok hok with hlt'' | ⟨rfl, hpos⟩ <;> omega
        obtain ⟨h₁, h₂⟩ :=
          ih _ hlt' (r := { r' with position := r'.position + copy.length }) rfl hstreams
        show (readLoop { r' with position := r'.position + copy.length } n (out ++ copy)).2 = _ ∧
          (readLoop { r' with position := r'.position + copy.length } n (out ++ copy)).1.Streams _
        rw [streamRead_drop hc hs, htake]
        simp only [List.length_append, ← Nat.sub_sub] at h₁ h₂
        refine ⟨?_, h₂⟩
        rw [h₁]
        cases (streamRead (s.drop copy.length) (n - out.length - copy.length)).2 <;>
          simp [Except.map]
      · rw [herr] at hfill
        cases hfill
  · -- all `n` bytes are there
    rename_i hge
    have h0 : n - out.length = 0 := by omega
    rw [h0]
    exact ⟨by simp [streamRead, Except.map], by simpa [streamRead] using h⟩

/-- One `read` of `n` bytes is a read of the stream. -/
theorem read_streams {r : CRCReader} {s : List UInt8} (h : r.Streams s) (n : Nat) :
    (r.read n).2 = (streamRead s n).2 ∧ (r.read n).1.Streams (streamRead s n).1 := by
  obtain ⟨h₁, h₂⟩ := @readLoop_streams _ r s n [] rfl h
  refine ⟨?_, h₂⟩
  rw [read, h₁]
  cases (streamRead s n).2 <;> rfl

/-- A run of `read`s of `n₁, n₂, …` bytes, and what each returns. -/
def readMany (r : CRCReader) : List Nat → List (Except IoError (List UInt8))
  | [] => []
  | n :: ns => (r.read n).2 :: (r.read n).1.readMany ns

end CRCReader

/-- A run of reads of a stream. -/
def streamReadMany (s : List UInt8) : List Nat → List (Except IoError (List UInt8))
  | [] => []
  | n :: ns => (streamRead s n).2 :: streamReadMany (streamRead s n).1 ns

namespace CRCReader

/-- Any run of reads returns what the same reads of the stream return. -/
theorem readMany_streams {r : CRCReader} {s : List UInt8} (h : r.Streams s) (ns : List Nat) :
    r.readMany ns = streamReadMany s ns := by
  induction ns generalizing r s with
  | nil => rfl
  | cons n ns ih =>
    obtain ⟨h₁, h₂⟩ := read_streams h n
    rw [readMany, streamReadMany, h₁, ih h₂]

/-- A new reader over blocks streams their payloads: its first read loads a block. -/
theorem create_streams {inner : List UInt8} {chunkSize : Nat} {payloads : List (List UInt8)}
    (h8 : 8 < chunkSize) (h : Framed chunkSize inner payloads) :
    (create inner chunkSize).Streams payloads.flatten :=
  ⟨show 0 < chunkSize by omega, payloads, h, by simp [create, List.drop_eq_nil_of_le]⟩

end CRCReader

/-! ## The writer writes blocks -/

theorem take_overwrite_of_le {buffer bytes : List UInt8} {offset m : Nat} (hm : m ≤ offset)
    (ho : offset ≤ buffer.length) : (overwrite buffer offset bytes).take m = buffer.take m := by
  rw [overwrite, List.append_assoc, List.take_append_of_le_length (by simp; omega),
    List.take_take, Nat.min_eq_left hm]

theorem drop_overwrite_of_le {buffer bytes : List UInt8} {offset m : Nat}
    (hm : offset + bytes.length ≤ m) (ho : offset ≤ buffer.length) :
    (overwrite buffer offset bytes).drop m = buffer.drop m := by
  have hlen : (buffer.take offset ++ bytes).length = offset + bytes.length := by simp; omega
  rw [overwrite, List.drop_append, List.drop_eq_nil_of_le (by omega), hlen, List.nil_append,
    List.drop_drop]
  congr 1
  omega

theorem take_drop_overwrite {buffer bytes : List UInt8} {offset : Nat}
    (ho : offset ≤ buffer.length) :
    ((overwrite buffer offset bytes).drop offset).take bytes.length = bytes := by
  rw [overwrite, List.append_assoc, List.drop_left' (by simp; omega), List.take_left' rfl]

/-- After the payload's first `p` bytes, `batch` is written. -/
theorem take_drop_overwrite_append {buffer batch : List UInt8} {p : Nat}
    (h : 8 + p + batch.length ≤ buffer.length) :
    ((overwrite buffer (8 + p) batch).drop 8).take (p + batch.length) =
      (buffer.drop 8).take p ++ batch := by
  have hfront : ((buffer.take (8 + p)).drop 8) = (buffer.drop 8).take p := by
    rw [List.drop_take, Nat.add_sub_cancel_left]
  have hlen : ((buffer.drop 8).take p).length = p := by simp; omega
  rw [overwrite, List.append_assoc, List.drop_append_of_le_length (by simp; omega), hfront,
    List.take_append, List.take_of_length_le (by omega), hlen, Nat.add_sub_cancel_left,
    List.take_left' rfl]

theorem decodeU32BE_encodeU32BE (x : UInt32) : decodeU32BE (encodeU32BE x) = x := by
  rw [decodeU32BE, encodeU32BE, List.reverse_reverse, ofLittleEndian_toLittleEndian,
    show (256 : Nat) ^ 4 = 2 ^ 32 by norm_num, Nat.mod_eq_of_lt x.toNat_lt, UInt32.ofNat_toNat]

/-- The CRC a sealed block carries: that of its length field and its payload. -/
theorem take_sealBlock {buffer : List UInt8} {position : Nat} :
    (sealBlock buffer position).take 4 =
      encodeU32BE (checksumIeee
        (((overwrite buffer 4 (encodeU32BE (UInt32.ofNat position))).drop 4).take
          (position + 8 - 4))) := by
  have h := @take_drop_overwrite (overwrite buffer 4 (encodeU32BE (UInt32.ofNat position)))
    (encodeU32BE (checksumIeee
      (((overwrite buffer 4 (encodeU32BE (UInt32.ofNat position))).drop 4).take
        (position + 8 - 4)))) 0 (Nat.zero_le _)
  rwa [List.drop_zero, length_encodeU32BE] at h

/-- From 4 on, a sealed block is the buffer with its length field written. -/
theorem drop_sealBlock {buffer : List UInt8} {position : Nat} :
    (sealBlock buffer position).drop 4 =
      (overwrite buffer 4 (encodeU32BE (UInt32.ofNat position))).drop 4 :=
  drop_overwrite_of_le (by rw [length_encodeU32BE]) (Nat.zero_le _)

/-- The length field of a sealed block: the payload's length, as a `u32`. -/
theorem lengthField_sealBlock {buffer : List UInt8} {position : Nat} (hlen : 8 ≤ buffer.length) :
    ((sealBlock buffer position).drop 4).take 4 = encodeU32BE (UInt32.ofNat position) := by
  have h := @take_drop_overwrite buffer (encodeU32BE (UInt32.ofNat position)) 4 (by omega)
  rwa [length_encodeU32BE, ← drop_sealBlock] at h

/-- From 8 on, a sealed block is the buffer. -/
theorem drop_eight_sealBlock {buffer : List UInt8} {position : Nat} (hlen : 8 ≤ buffer.length) :
    (sealBlock buffer position).drop 8 = buffer.drop 8 := by
  rw [show 8 = 4 + 4 from rfl, ← List.drop_drop, drop_sealBlock, List.drop_drop,
    drop_overwrite_of_le (by rw [length_encodeU32BE]) (by omega)]

/-- A sealed block is accepted, with its payload, as long as the payload's length fits a `u32`. -/
theorem parseBlock_sealBlock {buffer : List UInt8} {position : Nat}
    (hlen : position + 8 ≤ buffer.length) (h32 : position < 2 ^ 32) :
    parseBlock (sealBlock buffer position) = .ok ((buffer.drop 8).take position) := by
  have hsize : (UInt32.ofNat position).toNat = position := by
    rw [UInt32.toNat_ofNat', Nat.mod_eq_of_lt h32]
  have hfits : ¬position + 8 > (sealBlock buffer position).length := by
    rw [length_sealBlock (by omega)]
    omega
  unfold parseBlock
  dsimp only
  rw [@lengthField_sealBlock buffer position (by omega), decodeU32BE_encodeU32BE, hsize,
    if_neg hfits, take_sealBlock, decodeU32BE_encodeU32BE, drop_sealBlock,
    show 8 + position - 4 = position + 8 - 4 by omega, if_neg (not_not.2 rfl),
    @drop_eight_sealBlock buffer position (by omega)]

/-- Blocks accepted one after the other, a block more at the end. -/
theorem Framed.append_block {chunkSize : Nat} {bytes block payload : List UInt8}
    {payloads : List (List UInt8)} (h : Framed chunkSize bytes payloads)
    (hlen : block.length = chunkSize) (hparse : parseBlock block = .ok payload) :
    Framed chunkSize (bytes ++ block) (payloads ++ [payload]) := by
  induction h with
  | nil => simpa using Framed.cons hlen hparse Framed.nil
  | cons hb hp _ ih =>
    rw [List.append_assoc]
    exact Framed.cons hb hp ih

namespace CRCWriter

/-- The payload the block holds so far. -/
def pending (w : CRCWriter) : List UInt8 := (w.buffer.drop 8).take w.position

/-- A writer that carries `bytes`: the blocks written out, which the reader accepts, and then the
payload being filled.  A payload's length fits the `u32` of a block's header. -/
structure Holds (w : CRCWriter) (bytes : List UInt8) : Prop where
  capacity_lt : w.capacity < 2 ^ 32
  framed : ∃ payloads, Framed (w.capacity + 8) w.writer payloads ∧
    payloads.flatten ++ w.pending = bytes

/-- Flushing a block writes out its payload as one block more. -/
theorem flushWith_holds {w : CRCWriter} {buffer : List UInt8} {position : Nat}
    (h : buffer.length = w.capacity + 8) (hpos : position ≤ w.capacity)
    (hcap : w.capacity < 2 ^ 32) {payloads : List (List UInt8)}
    (hframed : Framed (w.capacity + 8) w.writer payloads) :
    (w.flushWith buffer position h).Holds (payloads.flatten ++ (buffer.drop 8).take position) := by
  refine ⟨hcap, payloads ++ [(buffer.drop 8).take position], ?_, ?_⟩
  · exact hframed.append_block (by rw [length_sealBlock (by omega), h])
      (parseBlock_sealBlock (by omega) (by omega))
  · simp [pending, flushWith]

theorem flush_holds {w : CRCWriter} {bytes : List UInt8} (h : w.Holds bytes) :
    w.flush.Holds bytes ∧ w.flush.pending = [] := by
  obtain ⟨hcap, payloads, hframed, rfl⟩ := h
  exact ⟨flushWith_holds _ w.position_lt.le hcap hframed, by simp [pending, flush, flushWith]⟩

/-- A round of `write` carries what fits of the bytes on. -/
theorem writeStep_holds {w : CRCWriter} {bytes : List UInt8} (h : w.Holds bytes)
    (rest : List UInt8) :
    (w.writeStep rest).Holds (bytes ++ rest.take (w.capacity - w.position)) := by
  obtain ⟨hcap, payloads, hframed, rfl⟩ := h
  have hbatch := w.position_lt
  have hroom :
      8 + w.position + (rest.take (w.capacity - w.position)).length ≤ w.buffer.length := by
    rw [List.length_take, w.length_buffer]
    omega
  -- the payload so far, then the batch
  have hpending : ((overwrite w.buffer (8 + w.position) (rest.take (w.capacity - w.position))).drop
      8).take (w.position + (rest.take (w.capacity - w.position)).length) =
      w.pending ++ rest.take (w.capacity - w.position) :=
    take_drop_overwrite_append hroom
  unfold writeStep place
  dsimp only
  split
  · rw [List.append_assoc, ← hpending]
    exact flushWith_holds _ (by rw [List.length_take]; omega) hcap hframed
  · refine ⟨hcap, payloads, hframed, ?_⟩
    rw [List.append_assoc, ← hpending]
    rfl

/-- `write` carries all of the bytes on. -/
theorem write_holds {w : CRCWriter} {bytes rest : List UInt8} (h : w.Holds bytes) :
    (w.write rest).Holds (bytes ++ rest) := by
  induction w, rest using write_induction generalizing bytes with
  | nil w =>
    rw [write_eq, if_pos rfl, List.append_nil]
    exact h
  | round w rest hnil ih =>
    rw [write_eq, if_neg hnil]
    have h' := ih (writeStep_holds h rest)
    rwa [List.append_assoc, List.take_append_drop] at h'

/-- Two copies in a row, the second where the first ends, are one copy of both. -/
theorem overwrite_append {buffer a b : List UInt8} {offset : Nat}
    (h : offset + a.length + b.length ≤ buffer.length) :
    overwrite (overwrite buffer offset a) (offset + a.length) b =
      overwrite buffer offset (a ++ b) := by
  have hfront : (buffer.take offset ++ a).length = offset + a.length := by simp; omega
  unfold overwrite
  rw [← hfront, List.take_left' rfl, List.drop_length_add_append, List.drop_drop, hfront,
    List.length_append, Nat.add_assoc]
  simp only [List.append_assoc]

/-- `place` reads only the writer's bytes written out and its room. -/
theorem place_congr {w w' : CRCWriter} {buffer buffer' : List UInt8} {position position' : Nat}
    (hwriter : w.writer = w'.writer) (hcap : w.capacity = w'.capacity) (hbuffer : buffer = buffer')
    (hposition : position = position') (h : buffer.length = w.capacity + 8)
    (h' : buffer'.length = w'.capacity + 8) :
    w.place buffer position h = w'.place buffer' position' h' := by
  subst hbuffer hposition
  unfold place flushWith
  by_cases hfull : w.capacity ≤ position
  · rw [dif_pos hfull, dif_pos (hcap ▸ hfull)]
    ext <;> simp [hwriter, hcap]
  · rw [dif_neg hfull, dif_neg (hcap ▸ hfull)]
    ext <;> simp [hwriter, hcap]

/-- A round of `write` whose bytes fit in the room left only copies them in. -/
theorem writeStep_of_lt {w : CRCWriter} {a : List UInt8} (ha : a.length < w.capacity - w.position) :
    w.writeStep a = ⟨w.writer, overwrite w.buffer (8 + w.position) a, w.position + a.length,
      w.capacity, by rw [← List.take_of_length_le ha.le]; exact length_overwrite_batch w a,
      by omega⟩ := by
  have hbatch : a.take (w.capacity - w.position) = a := List.take_of_length_le ha.le
  unfold writeStep place
  dsimp only
  rw [dif_neg (by rw [hbatch]; omega)]
  ext <;> simp [hbatch]

/-- A round of `write` that leaves room, then another: one round of both. -/
theorem writeStep_writeStep {w : CRCWriter} {a : List UInt8} (b : List UInt8)
    (ha : a.length < w.capacity - w.position) :
    (w.writeStep a).writeStep b = w.writeStep (a ++ b) := by
  have hpos := w.position_lt
  have htake : (a ++ b).take (w.capacity - w.position) =
      a ++ b.take (w.capacity - (w.position + a.length)) := by
    rw [List.take_append, List.take_of_length_le ha.le]
    congr 2
    omega
  rw [writeStep_of_lt ha]
  unfold writeStep
  dsimp only
  refine place_congr rfl rfl ?_ ?_ _ _
  · rw [htake, ← overwrite_append, Nat.add_assoc]
    rw [List.length_take, w.length_buffer]
    omega
  · rw [htake, List.length_append, Nat.add_assoc]

/-- What `write` makes of some bytes depends on the bytes only, not on how they are cut into calls:
two writes in a row are one write of both. -/
theorem write_append (w : CRCWriter) (a b : List UInt8) :
    (w.write a).write b = w.write (a ++ b) := by
  induction w, a using write_induction with
  | nil w => rw [write_eq w [], if_pos rfl, List.nil_append]
  | round w a hne ih =>
    have hab : a ++ b ≠ [] := by simp [hne]
    rw [write_eq w a, if_neg hne, ih, write_eq w (a ++ b), if_neg hab]
    by_cases hroom : w.capacity - w.position ≤ a.length
    · -- the round takes from `a` only
      have hstep : w.writeStep (a ++ b) = w.writeStep a := by
        have htake := @List.take_append_of_le_length _ a b _ hroom
        unfold writeStep
        exact place_congr rfl rfl (by rw [htake]) (by rw [htake]) _ _
      rw [hstep, List.drop_append_of_le_length hroom]
    · -- `a` fits, and the next round goes on with `b`
      have hroom' : a.length < w.capacity - w.position := by omega
      rw [List.drop_of_length_le (by omega), List.nil_append, List.drop_append,
        List.drop_of_length_le (by omega), List.nil_append]
      by_cases hb : b = []
      · subst hb
        rw [List.append_nil, List.drop_nil, write_eq _ [], if_pos rfl]
      · rw [write_eq _ b, if_neg hb, writeStep_writeStep b hroom', writeStep_of_lt hroom']
        congr 2
        dsimp only
        omega

theorem writer_prefix_place (w : CRCWriter) (buffer : List UInt8) (position : Nat)
    (h : buffer.length = w.capacity + 8) : w.writer <+: (w.place buffer position h).writer := by
  unfold place
  split
  · exact List.prefix_append _ _
  · exact List.prefix_refl _

/-- `write` only adds to what is written out. -/
theorem writer_prefix_write (w : CRCWriter) (bytes : List UInt8) :
    w.writer <+: (w.write bytes).writer := by
  induction w, bytes using write_induction with
  | nil w => rw [write_eq, if_pos rfl]
  | round w bytes hnil ih =>
    rw [write_eq, if_neg hnil]
    exact (writer_prefix_place _ _ _ _).trans ih

/-- A `write` whose bytes fit in the room left writes nothing out. -/
theorem write_of_lt {w : CRCWriter} {bytes : List UInt8}
    (h : bytes.length < w.capacity - w.position) :
    (w.write bytes).writer = w.writer ∧ (w.write bytes).position = w.position + bytes.length := by
  by_cases hnil : bytes = []
  · subst hnil
    rw [write_eq, if_pos rfl]
    exact ⟨rfl, rfl⟩
  · rw [write_eq, if_neg hnil, List.drop_of_length_le (by omega), write_eq, if_pos rfl,
      writeStep_of_lt h]
    exact ⟨rfl, rfl⟩

/-- `flush` writes out a whole block, an empty one too. -/
theorem flush_writer_ne_nil (w : CRCWriter) : w.flush.writer ≠ [] := by
  have hlen : (sealBlock w.buffer w.position).length = w.capacity + 8 := by
    rw [length_sealBlock (by rw [w.length_buffer]; omega), w.length_buffer]
  show w.writer ++ sealBlock w.buffer w.position ≠ []
  rw [Ne, List.append_eq_nil_iff, not_and_or, ← List.length_eq_zero_iff (l := sealBlock _ _), hlen]
  exact .inr (by omega)

/-- A new writer carries nothing yet. -/
theorem create_holds {chunkSize : Nat} (h8 : 8 < chunkSize) (h32 : chunkSize < 2 ^ 32 + 8) :
    (create chunkSize h8).Holds [] :=
  ⟨show chunkSize - 8 < 2 ^ 32 by omega, [], .nil, by simp [pending, create]⟩

end CRCWriter

/-- A call on the writer: `write` of some bytes, or `flush`. -/
inductive WriterOp where
  | write (bytes : List UInt8)
  | flush

/-- The bytes a call writes. -/
def WriterOp.bytes : WriterOp → List UInt8
  | .write bytes => bytes
  | .flush => []

namespace CRCWriter

/-- The writer after a call. -/
def apply (w : CRCWriter) : WriterOp → CRCWriter
  | .write bytes => w.write bytes
  | .flush => w.flush

/-- `into_inner`: the bytes written out, after a last `flush`. -/
def intoInner (w : CRCWriter) : List UInt8 := w.flush.writer

theorem capacity_write (w : CRCWriter) (bytes : List UInt8) :
    (w.write bytes).capacity = w.capacity := by
  induction w, bytes using write_induction with
  | nil w => rw [write_eq, if_pos rfl]
  | round w bytes hnil ih =>
    rw [write_eq, if_neg hnil, ih]
    unfold writeStep place
    dsimp only
    split <;> rfl

theorem capacity_foldl_apply (w : CRCWriter) (ops : List WriterOp) :
    (ops.foldl apply w).capacity = w.capacity := by
  induction ops generalizing w with
  | nil => rfl
  | cons op ops ih =>
    rw [List.foldl_cons, ih]
    cases op with
    | write bytes => exact capacity_write w bytes
    | flush => rfl

theorem apply_holds {w : CRCWriter} {bytes : List UInt8} (h : w.Holds bytes) (op : WriterOp) :
    (w.apply op).Holds (bytes ++ op.bytes) := by
  cases op with
  | write rest => exact write_holds h
  | flush =>
    rw [WriterOp.bytes, List.append_nil]
    exact (flush_holds h).1

/-- Any calls carry the bytes they write on. -/
theorem foldl_apply_holds {w : CRCWriter} {bytes : List UInt8} (h : w.Holds bytes)
    (ops : List WriterOp) :
    (ops.foldl apply w).Holds (bytes ++ ops.flatMap WriterOp.bytes) := by
  induction ops generalizing w bytes with
  | nil => simpa using h
  | cons op ops ih => simpa [List.append_assoc] using ih (apply_holds h op)

/-- What `into_inner` leaves is blocks whose payloads are all the bytes. -/
theorem intoInner_framed {w : CRCWriter} {bytes : List UInt8} (h : w.Holds bytes) :
    ∃ payloads, Framed (w.capacity + 8) w.intoInner payloads ∧ payloads.flatten = bytes := by
  obtain ⟨⟨-, payloads, hframed, hbytes⟩, hpending⟩ := flush_holds h
  exact ⟨payloads, hframed, by rw [← hbytes, hpending, List.append_nil]⟩

end CRCWriter

/-- Whatever is written to a writer whose payload lengths fit a `u32`, with flushes anywhere, a
reader of the same chunk size over what `into_inner` leaves hands out as a stream: reads return
the bytes written, in order, and then an error. -/
theorem crcReader_reads_written {chunkSize : Nat} (h8 : 8 < chunkSize)
    (h32 : chunkSize < 2 ^ 32 + 8) (ops : List WriterOp) :
    let r := CRCReader.create
      ((ops.foldl CRCWriter.apply (CRCWriter.create chunkSize h8)).intoInner) chunkSize
    (∀ reads, r.readMany reads = streamReadMany (ops.flatMap WriterOp.bytes) reads) ∧
      (r.read (ops.flatMap WriterOp.bytes).length).2 = .ok (ops.flatMap WriterOp.bytes) ∧
      ∀ n, ((r.read (ops.flatMap WriterOp.bytes).length).1.read (n + 1)).2 =
        .error .unexpectedEof := by
  intro r
  obtain ⟨payloads, hframed, hflat⟩ := CRCWriter.intoInner_framed
    (CRCWriter.foldl_apply_holds (CRCWriter.create_holds h8 h32) ops)
  rw [CRCWriter.capacity_foldl_apply, List.nil_append] at *
  have hchunk : (CRCWriter.create chunkSize h8).capacity + 8 = chunkSize := by
    show chunkSize - 8 + 8 = chunkSize
    omega
  rw [hchunk] at hframed
  have hr : r.Streams (ops.flatMap WriterOp.bytes) :=
    hflat ▸ CRCReader.create_streams h8 hframed
  obtain ⟨hall, hrest⟩ := CRCReader.read_streams hr (ops.flatMap WriterOp.bytes).length
  simp only [streamRead, le_refl, if_true, List.take_length, List.drop_length] at hall hrest
  refine ⟨CRCReader.readMany_streams hr, hall, fun n => ?_⟩
  rw [(CRCReader.read_streams hrest (n + 1)).1]
  simp [streamRead]

theorem crcReader_reads_written_sixteen :
    let r := CRCReader.create (([.write [1, 2, 3], .flush].foldl CRCWriter.apply
      (CRCWriter.create 16 (by decide))).intoInner) 16
    (r.read 3).2 = .ok [1, 2, 3] :=
  (crcReader_reads_written (by decide) (by decide) [.write [1, 2, 3], .flush]).2.1

/-! ## A payload too long for its length field -/

namespace CRCWriter

/-- Bytes that fill the room left in the block make it full, and it is written out. -/
theorem write_of_length_eq {w : CRCWriter} {bytes : List UInt8}
    (h : bytes.length = w.capacity - w.position) :
    (w.write bytes).writer =
        w.writer ++ sealBlock (overwrite w.buffer (8 + w.position) bytes) w.capacity ∧
      (w.write bytes).buffer = sealBlock (overwrite w.buffer (8 + w.position) bytes) w.capacity ∧
      (w.write bytes).position = 0 := by
  have hpos := w.position_lt
  have hne : bytes ≠ [] := List.ne_nil_of_length_pos (by omega)
  have hbatch : bytes.take (w.capacity - w.position) = bytes := List.take_of_length_le (by omega)
  have hrest : bytes.drop (w.capacity - w.position) = [] := List.drop_of_length_le (by omega)
  rw [write_eq, if_neg hne, hrest, write_eq, if_pos rfl]
  unfold writeStep place
  dsimp only
  rw [dif_pos (by rw [hbatch]; omega)]
  simp only [flushWith, hbatch, h, Nat.add_sub_cancel' hpos.le, and_self]

end CRCWriter

namespace CRCReader

/-- `load_block` over a slice that starts with a block of `chunk_size` bytes. -/
theorem loadBlock_append {r : CRCReader} {block rest : List UInt8} (hr : r.reader = block ++ rest)
    (hlen : block.length = r.chunkSize) :
    r.loadBlock = match parseBlock block with
      | .ok payload => (⟨rest, payload, 0, r.chunkSize⟩, .ok ())
      | .error e => (⟨rest, [], 0, r.chunkSize⟩, .error e) := by
  unfold loadBlock
  simp only [hr, List.take_left' hlen, List.drop_left' hlen, hlen, lt_irrefl, if_false]

theorem readLoop_of_fill_error {r r' : CRCReader} {n : Nat} {out : List UInt8} {e : IoError}
    (hlt : out.length < n) (h : r.fill = (r', .error e)) : r.readLoop n out = (r', .error e) := by
  rw [readLoop, if_pos hlt]
  split <;> simp_all

end CRCReader

end Kvstore

end Morgan
