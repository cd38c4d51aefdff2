import PgMicro.Codec.Chain
import PgMicro.Codec.Words

/-!
# The WAL file

The header, the frames and the checksum of `core/storage/sqlite3_ondisk.rs`. The byte order of
the machine is a parameter.
-/

namespace PgMicro.Wal

open Codec List Endian

variable {word word' : List UInt8 → UInt32} {target : Endian}

def walHeaderSize : Nat := 32

def walFrameHeaderSize : Nat := 24

def walMagicLE : UInt32 := 0x377f0682

def walMagicBE : UInt32 := 0x377f0683

def PageSize.Valid (size : UInt32) : Prop :=
  512 ≤ size.toNat ∧ size.toNat ≤ 65536 ∧ ∃ k < 32, size.toNat = 2 ^ k

instance (size : UInt32) : Decidable (PageSize.Valid size) :=
  inferInstanceAs (Decidable (_ ∧ _ ∧ _))

structure PageSize where
  size : UInt32
  valid : PageSize.Valid size
  deriving DecidableEq

def PageSize.new (size : UInt32) : Option PageSize :=
  if h : PageSize.Valid size then some ⟨size, h⟩ else none

theorem PageSize.Valid.mod_eight {size : UInt32} (h : PageSize.Valid size) :
    size.toNat % 8 = 0 := by
  obtain ⟨hmin, _, k, _, hk⟩ := h
  have hthree : 3 ≤ k := by
    by_contra hlt
    have : 2 ^ k ≤ 2 ^ 2 := Nat.pow_le_pow_right (by decide) (by omega)
    omega
  obtain ⟨j, rfl⟩ := Nat.exists_eq_add_of_le hthree
  rw [hk, Nat.pow_add]
  exact Nat.mul_mod_right 8 (2 ^ j)

abbrev Checksum := UInt32 × UInt32

structure WalHeader where
  magic : UInt32
  fileFormat : UInt32
  pageSize : UInt32
  checkpointSeq : UInt32
  salt1 : UInt32
  salt2 : UInt32
  checksum1 : UInt32
  checksum2 : UInt32
  deriving DecidableEq, Repr

structure WalFrameHeader where
  pageNumber : UInt32
  dbSize : UInt32
  salt1 : UInt32
  salt2 : UInt32
  checksum1 : UInt32
  checksum2 : UInt32
  deriving DecidableEq, Repr

def checksumLoop (word : List UInt8 → UInt32) : List UInt8 → Checksum → Checksum
  | b0 :: b1 :: b2 :: b3 :: b4 :: b₅ :: b₆ :: b₇ :: buf, (s0, s1) =>
    let s0 := s0 + (word [b0, b1, b2, b3] + s1)
    let s1 := s1 + (word [b4, b₅, b₆, b₇] + s0)
    checksumLoop word buf (s0, s1)
  | _, s => s

/-- `none` where the assertion on the length fails. -/
def checksumWal (target : Endian) (buf : List UInt8) (input : Checksum) (nativeEndian : Bool) :
    Option Checksum :=
  if buf.length % 8 ≠ 0 then none
  else if nativeEndian then some (checksumLoop target.ofBytes buf input)
  else some (checksumLoop (fun word => swapBytes (target.ofBytes word)) buf input)

/-- `cfg!(target_endian = "big") == ((magic & 1) != 0)`. -/
def useNativeEndian (target : Endian) (magic : UInt32) : Bool :=
  decide (target = .big) == decide (magic &&& 1 ≠ 0)

namespace WalHeader

def words (h : WalHeader) : List UInt32 :=
  [h.magic, h.fileFormat, h.pageSize, h.checkpointSeq, h.salt1, h.salt2, h.checksum1, h.checksum2]

def asBytes (target : Endian) (h : WalHeader) : List UInt8 := h.words.flatMap target.toBytes

def encode (h : WalHeader) : List UInt8 := h.words.flatMap big.toBytes

def decode (s : List UInt8) : WalHeader :=
  let word i := big.ofBytes ((s.drop (4 * i)).take 4)
  ⟨word 0, word 1, word 2, word 3, word 4, word 5, word 6, word 7⟩

def checksum (h : WalHeader) : Checksum := (h.checksum1, h.checksum2)

/-- The fields that `prepare_wal_header` fills in, with the numbers that are drawn for the
salts. -/
def fillIn (target : Endian) (hdr : WalHeader) (pageSize : PageSize) (random1 random2 : UInt32) :
    WalHeader :=
  { hdr with
    magic := if target = .big then walMagicBE else walMagicLE
    pageSize := if hdr.pageSize = 0 then pageSize.size else hdr.pageSize
    salt1 := if hdr.salt1 = 0 ∧ hdr.salt2 = 0 then random1 else hdr.salt1
    salt2 := if hdr.salt1 = 0 ∧ hdr.salt2 = 0 then random2 else hdr.salt2 }

/-- `prepare_wal_header`. -/
def prepare (target : Endian) (hdr : WalHeader) (pageSize : PageSize) (random1 random2 : UInt32) :
    Option WalHeader :=
  let hdr := hdr.fillIn target pageSize random1 random2
  (checksumWal target ((hdr.asBytes target).take (walHeaderSize - 8)) (0, 0)
    (hdr.magic &&& 1 ≠ 0)).map fun (c1, c2) => { hdr with checksum1 := c1, checksum2 := c2 }

def frameSize (h : WalHeader) : Nat := walFrameHeaderSize + h.pageSize.toNat

end WalHeader

namespace WalFrameHeader

def words (fh : WalFrameHeader) : List UInt32 :=
  [fh.pageNumber, fh.dbSize, fh.salt1, fh.salt2, fh.checksum1, fh.checksum2]

def encode (fh : WalFrameHeader) : List UInt8 := fh.words.flatMap big.toBytes

def checksum (fh : WalFrameHeader) : Checksum := (fh.checksum1, fh.checksum2)

end WalFrameHeader

def parseWalFrameHeader (frame : List UInt8) : WalFrameHeader :=
  let word i := big.ofBytes ((frame.drop (4 * i)).take 4)
  ⟨word 0, word 1, word 2, word 3, word 4, word 5⟩

/-- `prepare_wal_frame`; `none` where the page has another size than the frame. -/
def prepareWalFrame (target : Endian) (walHeader : WalHeader) (prevChecksums : Checksum)
    (pageSize pageNumber dbSize : UInt32) (page : List UInt8) : Option (Checksum × List UInt8) :=
  if page.length ≠ pageSize.toNat then none
  else
    let native := useNativeEndian target walHeader.magic
    (checksumWal target ([pageNumber, dbSize].flatMap big.toBytes) prevChecksums native).bind
      fun headerChecksum => (checksumWal target page headerChecksum native).map fun (c1, c2) =>
        ((c1, c2), (WalFrameHeader.mk pageNumber dbSize walHeader.salt1 walHeader.salt2 c1
          c2).encode ++ page)

section

variable {magic : UInt32} {buf : List UInt8}

def wordOrder (magic : UInt32) : Endian := if magic &&& 1 = 0 then .little else .big

theorem checksumLoop_congr (h : ∀ bytes, bytes.length = 4 → word bytes = word' bytes)
    (buf : List UInt8) (s : Checksum) : checksumLoop word buf s = checksumLoop word' buf s := by
  fun_induction checksumLoop word' buf s with
  | case1 b0 b1 b2 b3 b4 b₅ b₆ b₇ buf s0 s1 s0' s1' ih =>
    rw [checksumLoop, h _ rfl, h _ rfl]
    exact ih
  | case2 buf s hshort =>
    rw [checksumLoop]
    exact hshort

theorem checksumWal_eq (hlen : buf.length % 8 = 0) (c : Checksum) :
    checksumWal target buf c (useNativeEndian target magic) =
      some (checksumLoop (wordOrder magic).ofBytes buf c) := by
  have hswap : checksumLoop (fun word => swapBytes (target.ofBytes word)) buf c =
      checksumLoop target.other.ofBytes buf c :=
    checksumLoop_congr (fun _ h => swapBytes_ofBytes target h) buf c
  rw [checksumWal, if_neg (not_not.2 hlen), hswap, useNativeEndian, wordOrder]
  by_cases hmagic : magic &&& 1 = 0 <;> cases target <;> simp [hmagic, other]

theorem checksumLoop_append {x y : List UInt8} (hx : x.length = 4) (hy : y.length = 4)
    (rest : List UInt8) (s : Checksum) :
    checksumLoop word (x ++ (y ++ rest)) s = checksumLoop word rest
      (s.1 + (word x + s.2), s.2 + (word y + (s.1 + (word x + s.2)))) := by
  match x, y, hx, hy with
  | [_, _, _, _], [_, _, _, _], _, _ => rfl

theorem checksumLoop_flatMap {e e' : Endian} (h : ∀ w, word (e.toBytes w) = word' (e'.toBytes w)) :
    ∀ (words : List UInt32) (s : Checksum),
      checksumLoop word (words.flatMap e.toBytes) s =
        checksumLoop word' (words.flatMap e'.toBytes) s
  | [], _ => rfl
  | [w], s => by
    have hshort : ∀ {word} (e : Endian), checksumLoop word (e.toBytes w) s = s := by
      intro word e
      have hlen := e.length_toBytes w
      match e.toBytes w, hlen with
      | [_, _, _, _], _ => rfl
    rw [flatMap_singleton, flatMap_singleton, hshort, hshort]
  | w :: w' :: words, s => by
    simp only [flatMap_cons]
    rw [checksumLoop_append (e.length_toBytes w) (e.length_toBytes w'),
      checksumLoop_append (e'.length_toBytes w) (e'.length_toBytes w'), h, h]
    exact checksumLoop_flatMap h words _

end

namespace WalHeader

theorem length_encode (h : WalHeader) : h.encode.length = walHeaderSize :=
  length_flatMap_toBytes ..

theorem decode_encode (h : WalHeader) : decode h.encode = h := by
  have hword : ∀ {i w}, h.words[i]? = some w →
      big.ofBytes ((h.encode.drop (4 * i)).take 4) = w := by
    intro i w hi
    have := big.ofBytes_word hi []
    rwa [append_nil] at this
  rw [decode]
  simp only [@hword 0 _ rfl, @hword 1 _ rfl, @hword 2 _ rfl, @hword 3 _ rfl, @hword 4 _ rfl,
    @hword 5 _ rfl, @hword 6 _ rfl, @hword 7 _ rfl]

structure Valid (h : WalHeader) : Prop where
  pageSize : PageSize.Valid h.pageSize
  checksum : checksumLoop (wordOrder h.magic).ofBytes (h.encode.take 24) (0, 0) = h.checksum

theorem length_take_words (e : Endian) (h : WalHeader) :
    ((h.words.take 6).flatMap e.toBytes).length = 24 := by
  rw [length_flatMap_toBytes, words]
  rfl

theorem take_words (e : Endian) (h : WalHeader) :
    (h.words.flatMap e.toBytes).take 24 = (h.words.take 6).flatMap e.toBytes := by
  have hsplit : h.words = h.words.take 6 ++ h.words.drop 6 := (take_append_drop 6 _).symm
  nth_rewrite 1 [hsplit]
  rw [flatMap_append, take_left' (length_take_words e h)]

theorem checksumWal_asBytes (target : Endian) (h : WalHeader)
    (hmagic : h.magic = if target = .big then walMagicBE else walMagicLE) :
    checksumWal target ((h.asBytes target).take (walHeaderSize - 8)) (0, 0) (h.magic &&& 1 ≠ 0) =
      some (checksumLoop (wordOrder h.magic).ofBytes (h.encode.take 24) (0, 0)) := by
  have hasBytes : (h.asBytes target).take (walHeaderSize - 8) =
      (h.words.take 6).flatMap target.toBytes := take_words target h
  rw [hasBytes, encode, take_words, checksumWal, length_take_words, if_neg (by decide), hmagic]
  cases target with
  | big => rfl
  | little =>
    refine congrArg some (checksumLoop_flatMap ?_ _ _)
    intro w
    rw [ofBytes_toBytes, swapBytes_eq .big]
    rfl

variable {h hdr : WalHeader} {pageSize : PageSize} {random1 random2 : UInt32}

theorem valid_of_prepare (hprepare : prepare target hdr pageSize random1 random2 = some h)
    (hsize : hdr.pageSize = 0 ∨ PageSize.Valid hdr.pageSize) : h.Valid := by
  rw [prepare, checksumWal_asBytes target _ rfl, Option.map_some, Option.some.injEq] at hprepare
  subst hprepare
  refine ⟨?_, ?_⟩
  · simp only [fillIn]
    split
    · exact pageSize.valid
    next hne =>
      exact hsize.resolve_left hne
  · rfl

/-- The frames of a file with this header: a frame is accepted if it has a page number, the salts
of the header and the checksum that goes on from the frame before. -/
def records (h : WalHeader) : ChainedRecords UInt8 Checksum WalFrameHeader where
  size := h.frameSize
  next c frame :=
    let fh := parseWalFrameHeader frame
    let word := (wordOrder h.magic).ofBytes
    if frame.length = h.frameSize ∧ fh.pageNumber ≠ 0 ∧ fh.salt1 = h.salt1 ∧ fh.salt2 = h.salt2 ∧
        checksumLoop word (frame.drop walFrameHeaderSize) (checksumLoop word (frame.take 8) c) =
          fh.checksum then some fh
    else none
  state := WalFrameHeader.checksum

theorem records_size (h : WalHeader) : h.records.size = h.frameSize := rfl

def validFrames (h : WalHeader) (bytes : List UInt8) : List WalFrameHeader :=
  h.records.accepted (bytes.length / h.frameSize) h.checksum bytes

end WalHeader

section

variable {h : WalHeader} {c c' : Checksum} {pageNumber dbSize : UInt32}
  {page frame : List UInt8}

theorem length_encode (fh : WalFrameHeader) : fh.encode.length = walFrameHeaderSize :=
  length_flatMap_toBytes ..

theorem parseWalFrameHeader_encode (fh : WalFrameHeader) (page : List UInt8) :
    parseWalFrameHeader (fh.encode ++ page) = fh := by
  have hword : ∀ {i w}, fh.words[i]? = some w →
      big.ofBytes (((fh.encode ++ page).drop (4 * i)).take 4) = w :=
    fun hi => big.ofBytes_word hi page
  rw [parseWalFrameHeader]
  simp only [@hword 0 _ rfl, @hword 1 _ rfl, @hword 2 _ rfl, @hword 3 _ rfl, @hword 4 _ rfl,
    @hword 5 _ rfl]

theorem length_head (pageNumber dbSize : UInt32) :
    ([pageNumber, dbSize].flatMap big.toBytes).length = 8 :=
  length_flatMap_toBytes ..

theorem take_encode (fh : WalFrameHeader) (page : List UInt8) :
    (fh.encode ++ page).take 8 = [fh.pageNumber, fh.dbSize].flatMap big.toBytes := by
  have hsplit : fh.encode = [fh.pageNumber, fh.dbSize].flatMap big.toBytes ++
      [fh.salt1, fh.salt2, fh.checksum1, fh.checksum2].flatMap big.toBytes := by
    rw [← flatMap_append]
    rfl
  rw [hsplit, append_assoc, take_left' (length_head ..)]

theorem prepareWalFrame_spec (hvalid : h.Valid) (hpage : pageNumber ≠ 0)
    (hprepare : prepareWalFrame target h c h.pageSize pageNumber dbSize page = some (c', frame)) :
    frame.length = h.frameSize ∧
      h.records.next c frame = some ⟨pageNumber, dbSize, h.salt1, h.salt2, c'.1, c'.2⟩ := by
  rw [prepareWalFrame] at hprepare
  split at hprepare
  · cases hprepare
  next hlen =>
    rw [not_not] at hlen
    have hhead : ([pageNumber, dbSize].flatMap big.toBytes).length % 8 = 0 := by
      rw [length_head]
    have hmod : page.length % 8 = 0 := hlen ▸ hvalid.pageSize.mod_eight
    simp only [checksumWal_eq hhead, checksumWal_eq hmod, Option.bind_some, Option.map_some,
      Option.some.injEq, Prod.mk.injEq] at hprepare
    obtain ⟨rfl, rfl⟩ := hprepare
    have hsize : ∀ fh : WalFrameHeader, (fh.encode ++ page).length = h.frameSize := by
      intro fh
      rw [length_append, length_encode, hlen, WalHeader.frameSize]
    refine ⟨hsize _, ?_⟩
    simp only [WalHeader.records, parseWalFrameHeader_encode, hsize, take_encode,
      drop_left' (length_encode _)]
    rw [if_pos ⟨trivial, hpage, trivial, trivial, rfl⟩]

end

end PgMicro.Wal
