import Timeless.Codec.Column
import Timeless.Metrics.Grid
import Timeless.Support.Sorting

/-!
# Chunk — the payload of a raw chunk

A raw chunk is a row of the chunks table: what the index says about it, and its points as two
columns of bytes, either as they are or compressed by pco. `decodeChunkData` reads the points in a
range.

* `rawChunk_sound`: a chunk of points in time order, written as they are, can be read, and its bounds
  are those of its points.
-/

namespace Timeless.Metrics

open Support

/-! ### Codecs -/

def encRaw : UInt8 := 1

/-- The numeric compressor for one type of numbers. The decompressor fills a buffer of the given
size and says whether the stream was finished and how many values it held. -/
structure Pco (α : Type) where
  compress : List α → Nat → Except String (List UInt8)
  decompressInto : List UInt8 → Nat → Except String (List α × Bool × Nat)

def Pco.decompressCapped {α : Type} (pco : Pco α) (bytes : List UInt8) (n : Nat) (what : String) :
    Except String (List α) :=
  match pco.decompressInto bytes n with
  | .error e => .error s!"pco decompress of {what} failed: {e}"
  | .ok (out, finished, processed) =>
      if !finished || processed != n then
        .error s!"pco decompress of {what}: stream holds {processed} values, expected {n}"
      else .ok out

/-- The compressors of the two columns. -/
structure ChunkCodecs where
  ts : Pco Int64
  val : Pco F64

/-- Compressors that store their input as it is. -/
def ChunkCodecs.storing : ChunkCodecs where
  ts := ⟨fun nums _ => .ok (nums.flatMap i64Le), fun z n =>
    let nums := (chunksExact 8 z).map i64OfLe
    .ok (nums.take n, decide (nums.length ≤ n), min n nums.length)⟩
  val := ⟨fun nums _ => .ok (nums.flatMap fun v => leBytes 8 v.toNat), fun z n =>
    let nums := (chunksExact 8 z).map fun b => UInt64.ofNat (leNat b)
    .ok (nums.take n, decide (nums.length ≤ n), min n nums.length)⟩

/-- The bytes of a timestamp, most significant first. -/
def i64Be (v : Int64) : List UInt8 :=
  (i64Le v).reverse

def i64OfBe (bs : List UInt8) : Int64 :=
  i64OfLe bs.reverse

/-- The bytes of a value, most significant first. -/
def f64Be (v : F64) : List UInt8 :=
  (leBytes 8 v.toNat).reverse

def f64OfBe (bs : List UInt8) : F64 :=
  UInt64.ofNat (leNat bs.reverse)

/-! ### Rows -/

/-- What the index knows of a chunk. -/
structure ChunkMeta where
  minTs : Int
  maxTs : Int
  maxTsVal : Option F64
  pointCount : Nat
  minVal : F64
  maxVal : F64
  sumVal : F64
  rowid : Int
  encoding : UInt8
  deriving DecidableEq

structure ChunkBytes where
  ts : List UInt8
  val : List UInt8
  deriving DecidableEq

/-- A row of the chunks table that holds a raw chunk. -/
structure ChunkRow where
  seriesId : Int
  chunkMeta : ChunkMeta
  bytes : ChunkBytes
  deriving DecidableEq

/-- The place of a chunk in an error message. -/
def ChunkMeta.loc (m : ChunkMeta) : String :=
  s!"Row \x7b rowid: {m.rowid} \x7d"

/-! ### Reading -/

def decodeColumns (c : ChunkCodecs) (m : ChunkMeta) (bytes : ChunkBytes) :
    Except String (List Int × List F64) :=
  if m.encoding = encRaw then do
    rejectIf (bytes.ts.length % 8 ≠ 0 ∨ bytes.val.length % 8 ≠ 0)
      s!"raw payload misaligned in {m.loc}"
    return ((chunksExact 8 bytes.ts).map fun b => (i64OfBe b).toInt,
      (chunksExact 8 bytes.val).map f64OfBe)
  else do
    rejectIf (Codec.maxBlockEntries < m.pointCount)
      s!"chunk claims {m.pointCount} points in {m.loc} (limit {Codec.maxBlockEntries})"
    let timestamps ← c.ts.decompressCapped bytes.ts m.pointCount "chunk timestamps"
    let values ← c.val.decompressCapped bytes.val m.pointCount "chunk values"
    return (timestamps.map Int64.toInt, values)

/-- All points of a chunk. -/
def decodePoints (c : ChunkCodecs) (m : ChunkMeta) (bytes : ChunkBytes) :
    Except String (List Point) := do
  let columns ← decodeColumns c m bytes
  rejectIf (columns.1.length ≠ columns.2.length)
    s!"timestamp/value length mismatch in {m.loc}: {columns.1.length} vs {columns.2.length}"
  rejectIf (columns.1.length ≠ m.pointCount)
    s!"chunk holds {columns.1.length} points but index claims {m.pointCount} in {m.loc}"
  return columns.1.zip columns.2

/-- The points of a chunk in a range. -/
def decodeChunkData (c : ChunkCodecs) (m : ChunkMeta) (bytes : ChunkBytes) (tStart tEnd : Int) :
    Except String (List Point) := do
  let points ← decodePoints c m bytes
  return points.filter fun p => tStart ≤ p.1 ∧ p.1 ≤ tEnd

/-! ### Sound rows -/

/-- What a row holds. -/
def ChunkRow.points (c : ChunkCodecs) (row : ChunkRow) : List Point :=
  ((decodePoints c row.chunkMeta row.bytes).toOption).getD []

/-- The row can be read, and the index is right about its timestamps. -/
structure ChunkRow.Readable (c : ChunkCodecs) (row : ChunkRow) : Prop where
  decodes : decodePoints c row.chunkMeta row.bytes = .ok (row.points c)
  nonempty : row.points c ≠ []
  sorted : (row.points c).Pairwise fun p q => p.1 ≤ q.1
  range : ∀ p ∈ row.points c, InI64 p.1
  minTs : ((row.points c).head nonempty).1 = row.chunkMeta.minTs
  maxTs : ((row.points c).getLast nonempty).1 = row.chunkMeta.maxTs

/-- The row can be read, and the index is right about it; it need not know the newest value. -/
structure ChunkRow.Sound (c : ChunkCodecs) (row : ChunkRow) : Prop extends row.Readable c where
  newest : ∀ v, row.chunkMeta.maxTsVal = some v →
    firstGreatest Prod.fst (row.points c) = some (row.chunkMeta.maxTs, v)

variable {points : List Point} {c : ChunkCodecs} {row : ChunkRow} {p : Point}

/-- A row that is read as points which fit to what the index says. -/
theorem ChunkRow.sound_of (hread : decodePoints c row.chunkMeta row.bytes = .ok points)
    (hne : points ≠ []) (hsorted : points.Pairwise fun p q => p.1 ≤ q.1)
    (hrange : ∀ p ∈ points, InI64 p.1) (hmin : (points.head hne).1 = row.chunkMeta.minTs)
    (hmax : (points.getLast hne).1 = row.chunkMeta.maxTs)
    (hnewest : ∀ v, row.chunkMeta.maxTsVal = some v →
      firstGreatest Prod.fst points = some (row.chunkMeta.maxTs, v)) :
    row.Sound c ∧ row.points c = points := by
  have hpoints : row.points c = points := by
    rw [ChunkRow.points, hread]
    rfl
  subst hpoints
  exact ⟨⟨⟨hread, hne, hsorted, hrange, hmin, hmax⟩, hnewest⟩, rfl⟩

/-- The points of a chunk in a range. -/
theorem ChunkRow.Readable.decodeChunkData (h : row.Readable c) (tStart tEnd : Int) :
    Metrics.decodeChunkData c row.chunkMeta row.bytes tStart tEnd =
      .ok ((row.points c).filter fun p => tStart ≤ p.1 ∧ p.1 ≤ tEnd) := by
  rw [Metrics.decodeChunkData, h.decodes]
  rfl

theorem head_le {l : List Point} (hne : l ≠ []) (h : l.Pairwise fun p q => p.1 ≤ q.1) (hp : p ∈ l) :
    (l.head hne).1 ≤ p.1 := by
  cases l with
  | nil => exact absurd rfl hne
  | cons q l =>
      rcases List.mem_cons.mp hp with rfl | hp
      · exact le_refl _
      · exact (List.pairwise_cons.mp h).1 p hp

theorem le_getLast {l : List Point} (hne : l ≠ []) (h : l.Pairwise fun p q => p.1 ≤ q.1)
    (hp : p ∈ l) : p.1 ≤ (l.getLast hne).1 := by
  rw [← List.dropLast_append_getLast hne] at h hp
  obtain ⟨-, -, hlast⟩ := List.pairwise_append.mp h
  rcases List.mem_append.mp hp with hp | hp
  · exact hlast p hp _ (List.mem_singleton_self _)
  · rw [List.mem_singleton.mp hp]

theorem ChunkRow.Readable.bounds (h : row.Readable c) (hp : p ∈ row.points c) :
    row.chunkMeta.minTs ≤ p.1 ∧ p.1 ≤ row.chunkMeta.maxTs :=
  ⟨h.minTs ▸ head_le h.nonempty h.sorted hp, h.maxTs ▸ le_getLast h.nonempty h.sorted hp⟩

/-! ### There and back -/

@[simp] theorem i64OfBe_i64Be (v : Int64) : i64OfBe (i64Be v) = v := by
  rw [i64OfBe, i64Be, List.reverse_reverse, i64OfLe_i64Le]

@[simp] theorem f64OfBe_f64Be (v : F64) : f64OfBe (f64Be v) = v := by
  rw [f64OfBe, f64Be, List.reverse_reverse, leNat_leBytes v.toNat_lt, UInt64.ofNat_toNat]

theorem length_i64Be (v : Int64) : (i64Be v).length = 8 := by
  rw [i64Be, List.length_reverse, length_i64Le]

theorem length_f64Be (v : F64) : (f64Be v).length = 8 := by
  rw [f64Be, List.length_reverse, length_leBytes]

theorem map_toInt_ofInt (hrange : ∀ p ∈ points, InI64 p.1) :
    (points.map fun p => Int64.ofInt p.1).map Int64.toInt = points.map Prod.fst := by
  rw [List.map_map]
  refine List.map_congr_left fun p hp => ?_
  obtain ⟨hlo, hhi⟩ := hrange p hp
  exact Int64.toInt_ofInt_of_le hlo (Int.lt_add_one_of_le hhi)

theorem decodeColumns_raw (c : ChunkCodecs) (hrange : ∀ p ∈ points, InI64 p.1) {m : ChunkMeta}
    (hraw : m.encoding = encRaw) :
    decodeColumns c m ⟨(points.map fun p => Int64.ofInt p.1).flatMap i64Be,
      (points.map Prod.snd).flatMap f64Be⟩ = .ok (points.map Prod.fst, points.map Prod.snd) := by
  have hts := length_flatMap_const length_i64Be (points.map fun p => Int64.ofInt p.1)
  have hval := length_flatMap_const length_f64Be (points.map Prod.snd)
  have htimes : (chunksExact 8 ((points.map fun p => Int64.ofInt p.1).flatMap i64Be)).map
      (fun b => (i64OfBe b).toInt) = points.map Prod.fst := by
    rw [chunksExact_flatMap (by decide) length_i64Be, List.map_map, ← map_toInt_ofInt hrange]
    simp only [Function.comp_def, i64OfBe_i64Be]
  have hvalues : (chunksExact 8 ((points.map Prod.snd).flatMap f64Be)).map f64OfBe =
      points.map Prod.snd := by
    rw [chunksExact_flatMap (by decide) length_f64Be, List.map_map]
    simp only [Function.comp_def, f64OfBe_f64Be, List.map_id']
  rw [decodeColumns, if_pos hraw, rejectIf_neg (by rw [hts, hval]; omega), ok_bind, htimes, hvalues]
  rfl

theorem decodePoints_of_columns {m : ChunkMeta} {bytes : ChunkBytes}
    (h : decodeColumns c m bytes = .ok (points.map Prod.fst, points.map Prod.snd))
    (hcount : m.pointCount = points.length) : decodePoints c m bytes = .ok points := by
  rw [decodePoints, h, ok_bind, rejectIf_neg (by simp), ok_bind, rejectIf_neg (by simp [hcount]),
    ok_bind, List.zip_map']
  exact congrArg Except.ok (List.map_id' points)

/-- A chunk of points as they are, with or without the newest value. -/
def rawChunk (rowid seriesId : Int) (points : List Point) (maxTsVal : Option F64) : ChunkRow where
  seriesId := seriesId
  chunkMeta := ⟨(points.head?.map Prod.fst).getD 0, (points.getLast?.map Prod.fst).getD 0, maxTsVal,
    points.length, 0, 0, 0, rowid, encRaw⟩
  bytes := ⟨(points.map fun p => Int64.ofInt p.1).flatMap i64Be, (points.map Prod.snd).flatMap f64Be⟩

/-- A raw chunk describes the points it holds. -/
theorem rawChunk_sound (c : ChunkCodecs) (rowid seriesId : Int) (hne : points ≠ [])
    (hsorted : points.Pairwise fun p q => p.1 ≤ q.1) (hrange : ∀ p ∈ points, InI64 p.1)
    {maxTsVal : Option F64} (hnewest : ∀ v, maxTsVal = some v →
      firstGreatest Prod.fst points = some ((points.getLast hne).1, v)) :
    (rawChunk rowid seriesId points maxTsVal).Sound c ∧
      (rawChunk rowid seriesId points maxTsVal).points c = points := by
  have hhead : (points.head hne).1 = (points.head?.map Prod.fst).getD 0 := by
    rw [List.head?_eq_some_head hne]
    rfl
  have hlast : (points.getLast hne).1 = (points.getLast?.map Prod.fst).getD 0 := by
    rw [List.getLast?_eq_some_getLast hne]
    rfl
  refine ChunkRow.sound_of (decodePoints_of_columns (decodeColumns_raw c hrange rfl) rfl) hne
    hsorted hrange hhead hlast fun v hv => ?_
  rw [hnewest v hv, hlast]
  rfl

end Timeless.Metrics
