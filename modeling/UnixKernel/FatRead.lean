import UnixKernel.FatGeometry

/-! Files of a FAT volume: `meta` and `read` of `filesys/parts/fat.rs`. The bytes of a file are those of the
clusters of its chain, one cluster after the other; `read` copies from there, and does not look at the size. -/

namespace UnixKernel

namespace Volume

/-- The bytes of the blocks from `lba` on that a buffer of `len` bytes holds. -/
def bytesAt (v : Volume) (len lba : Nat) : List Byte :=
  ((List.range ((len + v.blockSize - 1) / v.blockSize)).flatMap fun i => v.block (lba + i)).take len

theorem eq_bytesAt {v : Volume} {len lba : Nat} {buf : List Byte} (h : v.readBlock len lba = some buf) :
    buf = v.bytesAt len lba := by
  unfold readBlock at h
  dsimp only at h
  split_ifs at h
  exact (Option.some.inj h).symm

theorem length_bytesAt {v : Volume} (hpos : 0 < v.blockSize) (len lba : Nat) : (v.bytesAt len lba).length = len := by
  have hblocks : len ≤ (len + v.blockSize - 1) / v.blockSize * v.blockSize := by
    have hlt := Nat.lt_div_mul_add (a := len + v.blockSize - 1) hpos
    omega
  unfold bytesAt
  rw [List.length_take, List.length_flatMap, List.map_congr_left fun i _ => v.length_block (lba + i)]
  simpa using hblocks

end Volume

/-- The fields of `FMeta` but the number of the device. -/
structure FMeta where
  fid : Nat
  size : Nat
  ftype : FType
  perm : Nat
  uid : Nat
  gid : Nat

namespace FatFile

open FileAllocTable

/-- `meta`. -/
def fmeta (file : FatFile) : FMeta := ⟨file.fid, file.dirent.fileSize, file.dirent.ftype, 0o777, 0xffff, 0xffff⟩

def clustSize (fs : FileAllocTable) : Nat := fs.bpb.bytsPerSec * fs.bpb.secPerClus

variable (p : Profile) (fs : FileAllocTable) (readErr : String)

/-- The first loop of `read`: the clusters in front of the offset. It ends with what is left to skip and the
cluster to start in, or behind the chain; `none` when the fuel does not last. -/
def skipLoop : Nat → Nat → Nat → Option (Except Halt (Option (Nat × Nat)))
  | 0, _, _ => none
  | fuel + 1, skipRem, clust =>
    if clustSize fs ≤ skipRem then
      match nextClust p fs clust with
      | .error e => some (.error e)
      | .ok none => some (.ok none)
      | .ok (some nc) => skipLoop fuel (skipRem - clustSize fs) nc
    else some (.ok (some (skipRem, clust)))

/-- The second loop of `read`, with the buffer as it is filled. What is skipped is less than a cluster. -/
def copyLoop : Nat → Nat → Nat → Nat → List Byte → Option (Result Unit × List Byte)
  | 0, _, _, _, _ => none
  | fuel + 1, clust, skipRem, bytesRem, buf =>
    if bytesRem = 0 then some (.ok (.ok ()), buf)
    else match clust2sct p fs clust with
      | .error e => some (.error e, buf)
      | .ok sct =>
        match fs.part.readBlock (clustSize fs) sct with
        | none => some (.ok (.error ("FAT32 read error: " ++ readErr)), buf)
        | some clustBuf =>
          let readSize := min bytesRem (clustSize fs - skipRem)
          let readStart := buf.length - bytesRem
          let buf := buf.take readStart ++ (clustBuf.drop skipRem).take readSize ++
            buf.drop (readStart + readSize)
          match nextClust p fs clust with
          | .error e => some (.error e, buf)
          | .ok none => some (.ok (.ok ()), buf)
          | .ok (some nc) => copyLoop fuel nc 0 (bytesRem - readSize) buf

/-- `read`: the result and the buffer it leaves. -/
def read (fuel : Nat) (file : FatFile) (buf : List Byte) (offset : Nat) : Option (Result Unit × List Byte) :=
  if file.dirent.ftype ≠ .regular then some (.ok (.error "This file is not IOable"), buf)
  else match skipLoop p file.fs fuel offset file.dirent.clust with
    | none => none
    | some (.error e) => some (.error e, buf)
    | some (.ok none) => some (.ok (.ok ()), buf)
    | some (.ok (some (skipRem, clust))) => copyLoop p file.fs readErr fuel clust skipRem buf.length buf

/-! What is on the disk. -/

/-- The clusters from `c` to the one that `next_clust` finds no successor for. -/
inductive Chain : Nat → List Nat → Prop where
  | last {c : Nat} (hnext : nextClust p fs c = .ok none) : Chain c [c]
  | link {c nc : Nat} {chain : List Nat} (hnext : nextClust p fs c = .ok (some nc)) (hrest : Chain nc chain) :
      Chain c (c :: chain)

/-- The bytes of a cluster. -/
def clustBytes (c : Nat) : List Byte :=
  match clust2sct p fs c with
  | .ok sct => fs.part.bytesAt (clustSize fs) sct
  | .error _ => List.replicate (clustSize fs) 0

/-- The device reads of a cluster succeed. -/
def Readable (c : Nat) : Prop :=
  ∃ sct, clust2sct p fs c = .ok sct ∧ (fs.part.readBlock (clustSize fs) sct).isSome

/-- Some byte of a range lies in the cluster with number `i` of the chain. -/
def Touched (size offset len i : Nat) : Prop := 0 < len ∧ i * size < offset + len ∧ offset < (i + 1) * size

variable {p fs readErr}

theorem length_clustBytes (hblock : 0 < fs.part.blockSize) (c : Nat) :
    (clustBytes p fs c).length = clustSize fs := by
  unfold clustBytes
  cases clust2sct p fs c with
  | ok sct => exact Volume.length_bytesAt hblock _ _
  | error e => exact List.length_replicate

theorem length_fileBytes (hblock : 0 < fs.part.blockSize) (chain : List Nat) :
    (chain.flatMap (clustBytes p fs)).length = chain.length * clustSize fs := by
  rw [List.length_flatMap, List.map_congr_left fun c _ => length_clustBytes hblock c]
  simp

theorem readBlock_of_readable {c : Nat} (h : Readable p fs c) : ∃ sct, clust2sct p fs c = .ok sct ∧
    fs.part.readBlock (clustSize fs) sct = some (clustBytes p fs c) := by
  obtain ⟨sct, hsct, hread⟩ := h
  obtain ⟨buf, hbuf⟩ := Option.isSome_iff_exists.mp hread
  refine ⟨sct, hsct, ?_⟩
  rw [hbuf, Volume.eq_bytesAt hbuf, clustBytes, hsct]

/-! ### The two loops along a chain -/

/-- The first loop leaves the offset in the rest of the chain, or ends behind the chain. -/
theorem skipLoop_chain {c : Nat} {chain : List Nat} (h : Chain p fs c chain) :
    ∀ {fuel : Nat} (skipRem : Nat), chain.length ≤ fuel →
      (chain.length * clustSize fs ≤ skipRem ∧ skipLoop p fs fuel skipRem c = some (.ok none)) ∨
      ∃ front rest c' r, chain = front ++ rest ∧ Chain p fs c' rest ∧
        skipRem = front.length * clustSize fs + r ∧ r < clustSize fs ∧
        skipLoop p fs fuel skipRem c = some (.ok (some (r, c'))) := by
  induction h with
  | @last c hnext =>
      intro fuel skipRem hfuel
      obtain ⟨fuel, rfl⟩ := Nat.exists_eq_add_of_le' hfuel
      by_cases hskip : clustSize fs ≤ skipRem
      · refine Or.inl ⟨by simpa using hskip, ?_⟩
        simp only [List.length_singleton, skipLoop, if_pos hskip, hnext]
      · refine Or.inr ⟨[], [c], c, skipRem, rfl, .last hnext, by simp, Nat.lt_of_not_le hskip, ?_⟩
        simp only [List.length_singleton, skipLoop, if_neg hskip]
  | @link c nc chain hnext hrest ih =>
      intro fuel skipRem hfuel
      rw [List.length_cons] at hfuel
      obtain ⟨fuel, rfl⟩ := Nat.exists_eq_succ_of_ne_zero (show fuel ≠ 0 by omega)
      by_cases hskip : clustSize fs ≤ skipRem
      · have hstep : skipLoop p fs (fuel + 1) skipRem c = skipLoop p fs fuel (skipRem - clustSize fs) nc := by
          simp only [skipLoop, if_pos hskip, hnext]
        have hfuel' : chain.length ≤ fuel := by omega
        rcases ih (skipRem - clustSize fs) hfuel' with ⟨hle, hres⟩ | ⟨front, rest, c', r, hsplit, hc', heq, hr, hres⟩
        · refine Or.inl ⟨?_, hstep.trans hres⟩
          rw [List.length_cons, Nat.succ_mul]
          omega
        · refine Or.inr ⟨c :: front, rest, c', r, by rw [hsplit, List.cons_append], hc', ?_, hr, hstep.trans hres⟩
          rw [List.length_cons, Nat.succ_mul]
          omega
      · refine Or.inr ⟨[], c :: chain, c, skipRem, rfl, .link hnext hrest, by simp, Nat.lt_of_not_le hskip, ?_⟩
        simp only [skipLoop, if_neg hskip]

/-- A piece of the file between the parts of the buffer that stay. -/
def fill (buf : List Byte) (start : Nat) (data : List Byte) : List Byte :=
  buf.take start ++ data ++ buf.drop (start + data.length)

theorem length_fill {buf data : List Byte} {start : Nat} (h : start + data.length ≤ buf.length) :
    (fill buf start data).length = buf.length := by
  simp only [fill, List.length_append, List.length_take, List.length_drop]
  omega

theorem getElem?_fill_of_lt {buf data : List Byte} {i : Nat} (h : i < data.length) :
    (fill buf 0 data)[i]? = data[i]? := by
  rw [fill, List.take_zero, List.nil_append, List.getElem?_append_left h]

theorem getElem?_fill_of_le {buf data : List Byte} {i : Nat} (h : data.length ≤ i) :
    (fill buf 0 data)[i]? = buf[i]? := by
  rw [fill, List.take_zero, List.nil_append, List.getElem?_append_right h, List.getElem?_drop, Nat.zero_add,
    Nat.add_sub_cancel' h]

theorem fill_nil (buf : List Byte) (start : Nat) : fill buf start [] = buf := by
  rw [fill, List.append_nil, List.length_nil, Nat.add_zero, List.take_append_drop]

theorem fill_fill {buf data data' : List Byte} {start : Nat} (h : start + data.length ≤ buf.length) :
    fill (fill buf start data) (start + data.length) data' = fill buf start (data ++ data') := by
  have hfront : (buf.take start ++ data).length = start + data.length := by
    rw [List.length_append, List.length_take]
    omega
  have htake : (fill buf start data).take (start + data.length) = buf.take start ++ data :=
    List.take_left' hfront
  have hdrop : (fill buf start data).drop (start + data.length + data'.length) =
      buf.drop (start + data.length + data'.length) := by
    rw [← List.drop_drop, fill, List.drop_left' hfront, List.drop_drop]
  rw [fill, htake, hdrop, fill, List.length_append, Nat.add_assoc]
  simp only [List.append_assoc]

theorem take_drop_append (content rest : List Byte) {skipRem : Nat} (bytesRem : Nat)
    (hskip : skipRem ≤ content.length) :
    ((content ++ rest).drop skipRem).take bytesRem =
      (content.drop skipRem).take (min bytesRem (content.length - skipRem)) ++
        rest.take (bytesRem - min bytesRem (content.length - skipRem)) := by
  rw [List.drop_append_of_le_length hskip, List.take_append, List.length_drop]
  congr 1
  · rw [List.take_eq_take_iff, List.length_drop]
    omega
  · congr 1
    omega

/-- A round of the second loop. -/
theorem copyLoop_round (hblock : 0 < fs.part.blockSize) {c bytesRem : Nat} (hread : Readable p fs c)
    (hpos : 0 < bytesRem) (readErr : String) (fuel skipRem : Nat) (buf : List Byte) :
    copyLoop p fs readErr (fuel + 1) c skipRem bytesRem buf =
      let readSize := min bytesRem (clustSize fs - skipRem)
      let buf' := fill buf (buf.length - bytesRem) (((clustBytes p fs c).drop skipRem).take readSize)
      match nextClust p fs c with
      | .error e => some (.error e, buf')
      | .ok none => some (.ok (.ok ()), buf')
      | .ok (some nc) => copyLoop p fs readErr fuel nc 0 (bytesRem - readSize) buf' := by
  obtain ⟨sct, hsct, hbuf⟩ := readBlock_of_readable hread
  have hlen : (((clustBytes p fs c).drop skipRem).take (min bytesRem (clustSize fs - skipRem))).length =
      min bytesRem (clustSize fs - skipRem) := by
    rw [List.length_take, List.length_drop, length_clustBytes hblock]
    omega
  rw [copyLoop, if_neg hpos.ne', hsct]
  simp only [hbuf, fill, hlen]

/-- The second loop copies what is left of the chain, as far as the buffer goes. -/
theorem copyLoop_chain (hblock : 0 < fs.part.blockSize) {c : Nat} {chain : List Nat} (h : Chain p fs c chain) :
    ∀ {fuel skipRem bytesRem : Nat} {buf : List Byte}, chain.length ≤ fuel → skipRem < clustSize fs →
      bytesRem ≤ buf.length →
      (∀ i c', chain[i]? = some c' → 0 < bytesRem → i * clustSize fs < skipRem + bytesRem → Readable p fs c') →
      copyLoop p fs readErr fuel c skipRem bytesRem buf = some (.ok (.ok ()), fill buf (buf.length - bytesRem)
        (((chain.flatMap (clustBytes p fs)).drop skipRem).take bytesRem)) := by
  have hdone : ∀ {fuel c skipRem : Nat} {buf data : List Byte}, 1 ≤ fuel →
      copyLoop p fs readErr fuel c skipRem 0 buf = some (.ok (.ok ()), fill buf (buf.length - 0) (data.take 0)) := by
    intro fuel c skipRem buf data hfuel
    obtain ⟨fuel, rfl⟩ := Nat.exists_eq_add_of_le' hfuel
    rw [copyLoop, if_pos rfl, List.take_zero, fill_nil]
  induction h with
  | @last c hnext =>
      intro fuel skipRem bytesRem buf hfuel hskip hrem hread
      rcases Nat.eq_zero_or_pos bytesRem with rfl | hpos
      · exact hdone hfuel
      obtain ⟨fuel, rfl⟩ := Nat.exists_eq_add_of_le' hfuel
      have hlen := length_clustBytes (p := p) hblock c
      have hc : Readable p fs c := hread 0 c rfl hpos (by omega)
      have hdata := take_drop_append (clustBytes p fs c) [] bytesRem (Nat.le_of_lt (hlen ▸ hskip))
      rw [List.append_nil, hlen, List.take_nil, List.append_nil] at hdata
      rw [List.length_singleton, copyLoop_round hblock hc hpos, hnext, List.flatMap_singleton, hdata]
  | @link c nc chain hnext hrest ih =>
      intro fuel skipRem bytesRem buf hfuel hskip hrem hread
      rw [List.length_cons] at hfuel
      rcases Nat.eq_zero_or_pos bytesRem with rfl | hpos
      · exact hdone (by omega)
      obtain ⟨fuel, rfl⟩ := Nat.exists_eq_succ_of_ne_zero (show fuel ≠ 0 by omega)
      have hlen := length_clustBytes (p := p) hblock c
      have hc : Readable p fs c := hread 0 c rfl hpos (by omega)
      have hdata := take_drop_append (clustBytes p fs c) (chain.flatMap (clustBytes p fs)) bytesRem
        (Nat.le_of_lt (hlen ▸ hskip))
      rw [hlen] at hdata
      have hround := copyLoop_round hblock hc hpos readErr fuel skipRem buf
      rw [hnext] at hround
      dsimp only at hround
      generalize hn : min bytesRem (clustSize fs - skipRem) = n at hdata hround
      generalize hpiece : ((clustBytes p fs c).drop skipRem).take n = piece at hdata hround
      have hsize : piece.length = n := by
        rw [← hpiece, List.length_take, List.length_drop, hlen]
        omega
      have hfits : buf.length - bytesRem + piece.length ≤ buf.length := by omega
      have hbuf := length_fill hfits
      have hstart : (fill buf (buf.length - bytesRem) piece).length - (bytesRem - n) =
          buf.length - bytesRem + piece.length := by omega
      have hfuel' : chain.length ≤ fuel := by omega
      have hrem' : bytesRem - n ≤ (fill buf (buf.length - bytesRem) piece).length := by omega
      have hrest := ih hfuel' (Nat.zero_lt_of_lt hskip) hrem' (by
        intro i c' hi hpos' hlt
        refine hread (i + 1) c' (by simpa using hi) hpos ?_
        rw [Nat.succ_mul]
        omega)
      rw [hround, hrest, hstart, List.drop_zero, fill_fill hfits, List.flatMap_cons, hdata]

/-- A read of a regular file puts the bytes of its chain from the offset on in front of the buffer. -/
theorem read_eq_fill {file : FatFile} {chain : List Nat} (hreg : file.dirent.ftype = .regular)
    (hblock : 0 < file.fs.part.blockSize) (hchain : Chain p file.fs file.dirent.clust chain) {buf : List Byte}
    {offset fuel : Nat} (hfuel : chain.length ≤ fuel)
    (hread : ∀ i c, chain[i]? = some c → Touched (clustSize file.fs) offset buf.length i → Readable p file.fs c) :
    read p readErr fuel file buf offset =
      some (.ok (.ok ()), fill buf 0 (((chain.flatMap (clustBytes p file.fs)).drop offset).take buf.length)) := by
  unfold read
  rw [if_neg (not_not.mpr hreg)]
  rcases skipLoop_chain hchain offset hfuel with ⟨hend, hskip⟩ | ⟨front, rest, c, r, hsplit, hc, hoff, hr, hskip⟩
  · have hnone : (chain.flatMap (clustBytes p file.fs)).drop offset = [] :=
      List.drop_eq_nil_of_le (by rw [length_fileBytes hblock]; exact hend)
    rw [hskip, hnone, List.take_nil, fill_nil]
  · have hdrop : (chain.flatMap (clustBytes p file.fs)).drop offset = (rest.flatMap (clustBytes p file.fs)).drop r := by
      rw [hsplit, List.flatMap_append, hoff, ← List.drop_drop, List.drop_left' (length_fileBytes hblock front)]
    have hfuel' : rest.length ≤ fuel := by
      rw [hsplit, List.length_append] at hfuel
      omega
    have hread' : ∀ i c', rest[i]? = some c' → 0 < buf.length → i * clustSize file.fs < r + buf.length →
        Readable p file.fs c' := by
      intro i c' hi hpos hlt
      refine hread (front.length + i) c' ?_ ⟨hpos, ?_, ?_⟩
      · rw [hsplit, List.getElem?_append_right (Nat.le_add_right _ _), Nat.add_sub_cancel_left, hi]
      · rw [Nat.add_mul]
        omega
      · rw [Nat.succ_mul, Nat.add_mul]
        omega
    rw [hskip]
    dsimp only
    rw [copyLoop_chain hblock hc hfuel' hr (Nat.le_refl buf.length) hread', Nat.sub_self, hdrop]

/-- A read of a regular file fills the buffer with the bytes of its chain from the offset on, as far as they go,
and leaves the rest of it. -/
theorem read_chain {file : FatFile} {chain : List Nat} (hreg : file.dirent.ftype = .regular)
    (hblock : 0 < file.fs.part.blockSize) (hchain : Chain p file.fs file.dirent.clust chain) (buf : List Byte)
    (offset : Nat) {fuel : Nat} (hfuel : chain.length ≤ fuel)
    (hread : ∀ i c, chain[i]? = some c → Touched (clustSize file.fs) offset buf.length i → Readable p file.fs c) :
    ∃ buf', read p readErr fuel file buf offset = some (.ok (.ok ()), buf') ∧ buf'.length = buf.length ∧
      buf'.take (min buf.length (chain.length * clustSize file.fs - offset)) =
        ((chain.flatMap (clustBytes p file.fs)).drop offset).take buf.length ∧
      buf'.drop (min buf.length (chain.length * clustSize file.fs - offset)) =
        buf.drop (min buf.length (chain.length * clustSize file.fs - offset)) := by
  have hlen : (((chain.flatMap (clustBytes p file.fs)).drop offset).take buf.length).length =
      min buf.length (chain.length * clustSize file.fs - offset) := by
    rw [List.length_take, List.length_drop, length_fileBytes hblock]
  refine ⟨_, read_eq_fill hreg hblock hchain hfuel hread, ?_, ?_, ?_⟩
  · exact length_fill (by omega)
  · rw [fill, List.take_zero, List.nil_append, List.take_left' hlen]
  · rw [fill, List.take_zero, List.nil_append, List.drop_left' hlen, Nat.zero_add, hlen]

/-- A floppy with one file of one cluster: sector 4 is full of `0x61`. -/
def storedFloppy : Volume where
  blockSize := 512
  blockCount := 349
  block lba :=
    if lba = 0 then floppyBoot
    else if lba = 1 then [0xf8, 0xff, 0xff, 0xff, 0x0f] ++ List.replicate 507 0
    else List.replicate 512 (if lba = 4 then 0x61 else 0)
  length_block lba := by
    split
    · exact length_floppyBoot
    split
    · decide +kernel
    · exact List.length_replicate

def storedTable : FileAllocTable := { floppyTable with part := storedFloppy }

/-- Five bytes in cluster 2. -/
def shortFile : FatFile :=
  ⟨⟨[0x53, 0x48, 0x4f, 0x52, 0x54, 0x20, 0x20, 0x20], [0x54, 0x58, 0x54], 0x20, 0, 2, 5⟩, storedTable, 1⟩

theorem new_storedFloppy : new storedFloppy = some storedTable := new_sameBoot new_floppy (by decide) ⟨rfl, rfl, rfl⟩

theorem wellFormed_storedTable : storedTable.WellFormed :=
  ⟨by decide, by decide, by decide, by decide, by decide, by decide, by decide, by decide, rfl, by decide⟩

theorem chain_shortFile : Chain p storedTable 2 [2] := .last (by cases p <;> decide +kernel)

/-- The bytes of a directory entry, with the name and its extension in eleven of them. -/
def entBytes (name : List Byte) (attr clust : Byte) (size : Nat) : List Byte :=
  name ++ [attr] ++ List.replicate 14 0 ++ [clust, 0, BitVec.ofNat 8 size, BitVec.ofNat 8 (size / 256), 0, 0]

/-- A deleted entry. -/
def gapBytes : List Byte := entBytes (0xe5 :: List.replicate 10 0x20) 0x20 0 0

/-- The root region: a deleted entry, the file `LONG.TXT` and the directory `SUB`. -/
def treeRoot : List Byte :=
  gapBytes ++ entBytes [0x4c, 0x4f, 0x4e, 0x47, 0x20, 0x20, 0x20, 0x20, 0x54, 0x58, 0x54] 0x20 2 600 ++
    entBytes [0x53, 0x55, 0x42, 0x20, 0x20, 0x20, 0x20, 0x20, 0x20, 0x20, 0x20] 0x10 3 0 ++ List.replicate 416 0

/-- The first cluster of the directory: `.`, `..`, a deleted entry, the file `NOTE.TXT` and more deleted entries. -/
def treeSub : List Byte :=
  entBytes (0x2e :: List.replicate 10 0x20) 0x10 3 0 ++ entBytes (0x2e :: 0x2e :: List.replicate 9 0x20) 0x10 0 0 ++
    gapBytes ++ entBytes [0x4e, 0x4f, 0x54, 0x45, 0x20, 0x20, 0x20, 0x20, 0x54, 0x58, 0x54] 0x20 6 5 ++
    (List.replicate 12 gapBytes).flatten

/-- Its second cluster: the file `note.TXT`. -/
def treeSub2 : List Byte :=
  entBytes [0x6e, 0x6f, 0x74, 0x65, 0x20, 0x20, 0x20, 0x20, 0x54, 0x58, 0x54] 0x20 7 1 ++ List.replicate 480 0

/-- A floppy with a directory and files in it and in the root. Two of them are on chains of two clusters: `LONG.TXT`
on 2 and 4, full of `0x61` and `0x62`, and `SUB` on 3 and 5. -/
def treeFloppy : Volume where
  blockSize := 512
  blockCount := 349
  block lba :=
    if lba = 0 then floppyBoot
    else if lba = 1 then
      [0xf8, 0xff, 0xff, 0x04, 0x50, 0x00, 0xff, 0xff, 0xff, 0xff, 0xff, 0xff] ++ List.replicate 500 0
    else if lba = 3 then treeRoot
    else if lba = 5 then treeSub
    else if lba = 7 then treeSub2
    else List.replicate 512 (if lba = 4 then 0x61 else if lba = 6 then 0x62 else 0)
  length_block lba := by
    split
    · exact length_floppyBoot
    split
    · decide +kernel
    split
    · decide +kernel
    split
    · decide +kernel
    split
    · decide +kernel
    · exact List.length_replicate

def treeTable : FileAllocTable := { floppyTable with part := treeFloppy }

theorem new_treeFloppy : new treeFloppy = some treeTable := new_sameBoot new_floppy (by decide) ⟨rfl, rfl, rfl⟩

/-- The file `LONG.TXT`. -/
def longFile : FatFile :=
  ⟨⟨[0x4c, 0x4f, 0x4e, 0x47, 0x20, 0x20, 0x20, 0x20], [0x54, 0x58, 0x54], 0x20, 0, 2, 600⟩, treeTable, 1⟩

theorem chain_longFile : Chain p treeTable 2 [2, 4] :=
  .link (by cases p <;> decide +kernel) (.last (by cases p <;> decide +kernel))

/-- Four bytes over the boundary of the clusters. -/
theorem read_chain_longFile :
    read .dev "" 2 longFile [1, 2, 3, 4] 510 = some (.ok (.ok ()), [0x61, 0x61, 0x62, 0x62]) := by
  have hread : ∀ i c, ([2, 4] : List Nat)[i]? = some c → Touched (clustSize treeTable) 510 4 i →
      Readable .dev treeTable c := by
    intro i c hi _
    have hc := List.mem_of_getElem? hi
    simp only [List.mem_cons, List.not_mem_nil, or_false] at hc
    rcases hc with rfl | rfl
    · exact ⟨4, by decide, by decide +kernel⟩
    · exact ⟨6, by decide, by decide +kernel⟩
  have hreg : longFile.dirent.ftype = .regular := by decide
  obtain ⟨buf', hres, hlen, htake, -⟩ := @read_chain .dev "" longFile [2, 4] hreg (by decide) chain_longFile
    [1, 2, 3, 4] 510 2 (Nat.le_refl 2) hread
  have hmin : min ([1, 2, 3, 4] : List Byte).length (([2, 4] : List Nat).length * clustSize longFile.fs - 510) = 4 := by
    decide
  have hbytes : ((([2, 4] : List Nat).flatMap (clustBytes .dev longFile.fs)).drop 510).take 4 =
      [0x61, 0x61, 0x62, 0x62] := by decide +kernel
  rw [hmin, List.take_of_length_le (by rw [hlen]; exact Nat.le_refl 4)] at htake
  rw [hres, htake]
  exact congrArg (fun bytes => some (Except.ok (Except.ok ()), bytes)) hbytes

/-! ### The size of the file -/

variable (p fs readErr)

/-- The clusters that the first loop looks up. -/
def skipTouches : Nat → Nat → Nat → List Nat
  | 0, _, _ => []
  | fuel + 1, skipRem, clust =>
    if clustSize fs ≤ skipRem then
      clust :: match nextClust p fs clust with
        | .ok (some nc) => skipTouches fuel (skipRem - clustSize fs) nc
        | _ => []
    else []

/-- The clusters that the second loop turns into sectors and looks up. -/
def copyTouches : Nat → Nat → Nat → Nat → List Nat
  | 0, _, _, _ => []
  | fuel + 1, clust, skipRem, bytesRem =>
    if bytesRem = 0 then []
    else clust :: match clust2sct p fs clust with
      | .error _ => []
      | .ok sct =>
        match fs.part.readBlock (clustSize fs) sct with
        | none => []
        | some _ =>
          match nextClust p fs clust with
          | .ok (some nc) => copyTouches fuel nc 0 (bytesRem - min bytesRem (clustSize fs - skipRem))
          | _ => []

/-- The clusters that `read` computes with. -/
def touches (fuel : Nat) (file : FatFile) (len offset : Nat) : List Nat :=
  if file.dirent.ftype ≠ .regular then []
  else skipTouches p file.fs fuel offset file.dirent.clust ++
    match skipLoop p file.fs fuel offset file.dirent.clust with
    | some (.ok (some (skipRem, clust))) => copyTouches p file.fs fuel clust skipRem len
    | _ => []

/-- A regular file as a sound volume holds it: empty and without a cluster, or on a chain of data clusters that
its size reaches to the last of. -/
structure Stored (file : FatFile) : Prop where
  regular : file.dirent.ftype = .regular
  clusters : file.dirent.clust = 0 ∧ file.dirent.fileSize = 0 ∨
    ∃ chain, Chain p file.fs file.dirent.clust chain ∧ (∀ c ∈ chain, 2 ≤ c ∧ c ≤ file.fs.clusters + 1) ∧
      (chain.length - 1) * clustSize file.fs < file.dirent.fileSize ∧
      file.dirent.fileSize ≤ chain.length * clustSize file.fs

/-- The ranges that stay below the size, or that the clusters of the file end for: an empty file is not read from
and not skipped in, and another one ends with its last cluster or is not read where they differ. -/
def EndsInTime (clustSize size offset len : Nat) : Prop :=
  if size = 0 then len = 0 ∧ offset < clustSize
  else len = 0 ∨ offset + len ≤ size ∨ clustSize ∣ size ∨ (size + clustSize - 1) / clustSize * clustSize ≤ offset

instance (clustSize size offset len : Nat) : Decidable (EndsInTime clustSize size offset len) :=
  inferInstanceAs (Decidable (ite _ _ _))

/-- No byte of a buffer at or behind the size is changed, and cluster 0 is not computed with. -/
def RespectsSize (file : FatFile) (len offset : Nat) : Prop :=
  (∀ buf fuel res buf', buf.length = len → read p readErr fuel file buf offset = some (res, buf') →
    ∀ i, file.fmeta.size ≤ offset + i → buf'[i]? = buf[i]?) ∧
  ∀ fuel, 0 ∉ touches p fuel file len offset

variable {p fs readErr}

variable (p fs) in
/-- The list starts at a cluster and goes on from entry to entry, if it has more than one. -/
inductive Along : Nat → List Nat → Prop where
  | none (c : Nat) : Along c []
  | one (c : Nat) : Along c [c]
  | more {c nc : Nat} {l : List Nat} (hnext : nextClust p fs c = .ok (some nc)) (h : Along nc l) : Along c (c :: l)

theorem skipTouches_along (fuel skipRem c : Nat) : Along p fs c (skipTouches p fs fuel skipRem c) := by
  induction fuel generalizing skipRem c with
  | zero => exact .none c
  | succ fuel ih =>
      unfold skipTouches
      split_ifs
      · split
        · next nc hnext => exact .more hnext (ih _ nc)
        · exact .one c
      · exact .none c

theorem copyTouches_along (fuel c skipRem bytesRem : Nat) :
    Along p fs c (copyTouches p fs fuel c skipRem bytesRem) := by
  induction fuel generalizing c skipRem bytesRem with
  | zero => exact .none c
  | succ fuel ih =>
      unfold copyTouches
      split_ifs
      · exact .none c
      · split
        · exact .one c
        · split
          · exact .one c
          · split
            · next nc hnext => exact .more hnext (ih nc _ _)
            · exact .one c

theorem Chain.mem_head {c : Nat} {chain : List Nat} (h : Chain p fs c chain) : c ∈ chain := by
  cases h <;> exact List.mem_cons_self

theorem Along.subset {c : Nat} {l chain : List Nat} (h : Along p fs c l) (hchain : Chain p fs c chain) :
    ∀ v ∈ l, v ∈ chain := by
  induction h generalizing chain with
  | none c => exact fun v hv => absurd hv List.not_mem_nil
  | one c => exact List.forall_mem_singleton.mpr hchain.mem_head
  | more hnext _ ih =>
      refine List.forall_mem_cons.mpr ⟨hchain.mem_head, ?_⟩
      cases hchain with
      | last hlast => cases hlast.symm.trans hnext
      | link hnext' hrest =>
          cases hnext'.symm.trans hnext
          exact fun v hv => List.mem_cons_of_mem _ (ih hrest v hv)

/-- Where the first loop ends, the rest of the chain begins. -/
theorem skipLoop_suffix {c : Nat} {chain : List Nat} (h : Chain p fs c chain) :
    ∀ {fuel skipRem r c' : Nat}, skipLoop p fs fuel skipRem c = some (.ok (some (r, c'))) →
      ∃ rest, Chain p fs c' rest ∧ ∀ v ∈ rest, v ∈ chain := by
  induction h with
  | @last c hnext =>
      intro fuel skipRem r c' hres
      cases fuel with
      | zero => cases hres
      | succ fuel =>
          simp only [skipLoop, hnext] at hres
          split_ifs at hres
          · cases hres
          · cases hres
            exact ⟨[c], .last hnext, fun _ hv => hv⟩
  | @link c nc chain hnext hrest ih =>
      intro fuel skipRem r c' hres
      cases fuel with
      | zero => cases hres
      | succ fuel =>
          simp only [skipLoop, hnext] at hres
          split_ifs at hres
          · obtain ⟨rest, hc', hsub⟩ := ih hres
            exact ⟨rest, hc', fun v hv => List.mem_cons_of_mem _ (hsub v hv)⟩
          · cases hres
            exact ⟨c :: chain, .link hnext hrest, fun _ hv => hv⟩

theorem touches_subset {file : FatFile} {chain : List Nat} (h : Chain p file.fs file.dirent.clust chain)
    {fuel len offset : Nat} : ∀ v ∈ touches p fuel file len offset, v ∈ chain := by
  intro v hv
  unfold touches at hv
  split_ifs at hv
  · cases hv
  · rcases List.mem_append.mp hv with hskip | hcopy
    · exact (skipTouches_along _ _ _).subset h v hskip
    · split at hcopy
      · rename_i skipRem clust hres
        obtain ⟨rest, hrest, hsub⟩ := skipLoop_suffix h hres
        exact hsub v ((copyTouches_along _ _ _ _).subset hrest v hcopy)
      · cases hcopy

/-! More fuel does not change a result. -/

theorem skipLoop_mono {res : Except Halt (Option (Nat × Nat))} : ∀ {fuel skipRem c : Nat} (k : Nat),
    skipLoop p fs fuel skipRem c = some res → skipLoop p fs (fuel + k) skipRem c = some res := by
  intro fuel
  induction fuel with
  | zero => intro skipRem c k h; cases h
  | succ fuel ih =>
      intro skipRem c k h
      rw [Nat.add_right_comm]
      unfold skipLoop at h ⊢
      split_ifs at h ⊢ with hskip
      · split at h
        · exact h
        · exact h
        · exact ih k h
      · exact h

theorem copyLoop_mono {res : Result Unit × List Byte} : ∀ {fuel c skipRem bytesRem : Nat} {buf : List Byte} (k : Nat),
    copyLoop p fs readErr fuel c skipRem bytesRem buf = some res →
    copyLoop p fs readErr (fuel + k) c skipRem bytesRem buf = some res := by
  intro fuel
  induction fuel with
  | zero => intro c skipRem bytesRem buf k h; cases h
  | succ fuel ih =>
      intro c skipRem bytesRem buf k h
      rw [Nat.add_right_comm]
      unfold copyLoop at h ⊢
      split_ifs at h ⊢ with hrem
      · exact h
      · split at h
        · exact h
        · split at h
          · exact h
          · dsimp only at h ⊢
            split at h
            · exact h
            · exact h
            · exact ih k h

theorem read_mono {file : FatFile} {buf : List Byte} {offset fuel : Nat} {res : Result Unit × List Byte} (k : Nat)
    (h : read p readErr fuel file buf offset = some res) :
    read p readErr (fuel + k) file buf offset = some res := by
  unfold read at h ⊢
  split_ifs at h ⊢ with hreg
  · exact h
  · split at h
    · cases h
    all_goals
      rename_i hskip
      rw [skipLoop_mono k hskip]
    · exact h
    · exact h
    · exact copyLoop_mono k h

/-! ### Files of a sound volume -/

section Sound

variable {part : Volume} {file : FatFile} {len offset : Nat} (hnew : new part = some file.fs) (hwf : file.fs.WellFormed)

include hwf in
theorem clustSize_pos : 0 < clustSize file.fs :=
  Nat.mul_pos (Nat.lt_of_lt_of_le (by decide) hwf.le_bytsPerSec) hwf.secPerClus_pos

include hwf in
theorem blockSize_pos : 0 < file.fs.part.blockSize := by
  rw [hwf.blocks]
  exact Nat.lt_of_lt_of_le (by decide) hwf.le_bytsPerSec

include hnew hwf in
/-- The data clusters can be read. -/
theorem readable_of_le {c : Nat} (hc : 2 ≤ c) (hle : c ≤ file.fs.clusters + 1) : Readable p file.fs c := by
  have hsec : 0 < file.fs.bpb.bytsPerSec := Nat.lt_of_lt_of_le (by decide) hwf.le_bytsPerSec
  have hblocks : (clustSize file.fs + file.fs.bpb.bytsPerSec - 1) / file.fs.bpb.bytsPerSec =
      file.fs.bpb.secPerClus := by
    unfold clustSize
    rw [Nat.add_sub_assoc hsec, Nat.mul_add_div hsec, Nat.div_eq_of_lt (by omega), Nat.add_zero]
  have hroom : file.fs.frontSectors + (c - 2 + 1) * file.fs.bpb.secPerClus ≤ file.fs.totalSectors := by
    have hcount : c - 2 + 1 ≤ file.fs.clusters := by omega
    rw [clusters, clustersWith, Nat.le_div_iff_mul_le hwf.secPerClus_pos] at hcount
    have hfront := hwf.front
    unfold frontSectors
    omega
  rw [Nat.succ_mul] at hroom
  have htotal := totalSectors_lt hnew
  have hspc : c - 2 ≤ (c - 2) * file.fs.bpb.secPerClus := Nat.le_mul_of_pos_right _ hwf.secPerClus_pos
  have hsct := clust2sct_eq (p := p) hsec (bytsPerSec_lt hnew) hc (by omega)
  have hfits := hwf.fits
  refine ⟨_, hsct, ?_⟩
  unfold Volume.readBlock
  rw [hwf.blocks, hblocks, if_pos (by omega)]
  rfl

/-- An empty file is left alone exactly when nothing is asked for in front of the second cluster. -/
theorem respectsSize_of_empty (hreg : file.dirent.ftype = .regular) (hclust : file.dirent.clust = 0) :
    RespectsSize p readErr file len offset ↔ EndsInTime (clustSize file.fs) 0 offset len := by
  unfold EndsInTime
  rw [if_pos rfl]
  constructor
  · rintro ⟨-, htouch⟩
    have hzero := htouch 1
    unfold touches at hzero
    rw [if_neg (not_not.mpr hreg), hclust] at hzero
    by_cases hskip : clustSize file.fs ≤ offset
    · refine absurd ?_ hzero
      rw [List.mem_append, skipTouches, if_pos hskip]
      exact Or.inl List.mem_cons_self
    · refine ⟨?_, Nat.lt_of_not_le hskip⟩
      by_contra hlen
      refine hzero (List.mem_append.mpr (Or.inr ?_))
      simp only [skipLoop, if_neg hskip, copyTouches, if_neg hlen]
      exact List.mem_cons_self
  · rintro ⟨rfl, hlt⟩
    have hskip : ¬clustSize file.fs ≤ offset := Nat.not_le.mpr hlt
    constructor
    · intro buf fuel res buf' hbuf hread i _
      cases fuel with
      | zero =>
          unfold read at hread
          rw [if_neg (not_not.mpr hreg)] at hread
          cases hread
      | succ fuel =>
          unfold read at hread
          rw [if_neg (not_not.mpr hreg)] at hread
          simp only [skipLoop, if_neg hskip, copyLoop, hbuf, if_pos] at hread
          cases hread
          rfl
    · intro fuel hmem
      unfold touches at hmem
      rw [if_neg (not_not.mpr hreg)] at hmem
      cases fuel with
      | zero => simp [skipTouches, skipLoop] at hmem
      | succ fuel => simp [skipTouches, skipLoop, copyTouches, hskip] at hmem

theorem blocks_of_size {n cs size : Nat} (hpos : 0 < cs) (hlow : (n - 1) * cs < size) (hhigh : size ≤ n * cs) :
    (size + cs - 1) / cs = n ∧ (cs ∣ size ↔ size = n * cs) := by
  have hn : 0 < n := Nat.pos_of_ne_zero (by rintro rfl; omega)
  have hlast : (n - 1) * cs + cs = n * cs := by rw [← Nat.succ_mul, Nat.succ_eq_add_one, Nat.sub_add_cancel hn]
  refine ⟨Nat.div_eq_of_lt_le (by omega) (by rw [Nat.succ_mul]; omega), ?_⟩
  constructor
  · rintro ⟨k, rfl⟩
    rw [Nat.mul_comm cs k] at hlow hhigh ⊢
    have hk₁ := Nat.lt_of_mul_lt_mul_right hlow
    have hk₂ := Nat.le_of_mul_le_mul_right hhigh hpos
    rw [show k = n by omega]
  · rintro rfl
    exact Nat.dvd_mul_left cs n

include hnew hwf in
/-- A file on a chain is read behind its size exactly when its last cluster goes on behind it and the range
reaches there. -/
theorem respectsSize_of_chain {chain : List Nat} (hreg : file.dirent.ftype = .regular)
    (hchain : Chain p file.fs file.dirent.clust chain) (hdata : ∀ c ∈ chain, 2 ≤ c ∧ c ≤ file.fs.clusters + 1)
    (hlow : (chain.length - 1) * clustSize file.fs < file.dirent.fileSize)
    (hhigh : file.dirent.fileSize ≤ chain.length * clustSize file.fs) :
    RespectsSize p readErr file len offset ↔
      EndsInTime (clustSize file.fs) file.dirent.fileSize offset len := by
  have hblock := blockSize_pos hwf
  obtain ⟨hblocks, hdvd⟩ := blocks_of_size (clustSize_pos hwf) hlow hhigh
  have hread : ∀ buf, read p readErr chain.length file buf offset = some (.ok (.ok ()),
      fill buf 0 (((chain.flatMap (clustBytes p file.fs)).drop offset).take buf.length)) := fun buf =>
    read_eq_fill hreg hblock hchain (Nat.le_refl _) fun i c hi _ =>
      have hc := hdata c (List.mem_of_getElem? hi)
      readable_of_le hnew hwf hc.1 hc.2
  have hbytes : ∀ n, (((chain.flatMap (clustBytes p file.fs)).drop offset).take n).length =
      min n (chain.length * clustSize file.fs - offset) := by
    intro n
    rw [List.length_take, List.length_drop, length_fileBytes hblock]
  unfold EndsInTime
  rw [if_neg (by omega), hblocks, hdvd]
  constructor
  · rintro ⟨hkeeps, -⟩
    by_contra hover
    obtain ⟨hlen, hrange, hsize, hoff⟩ : len ≠ 0 ∧ ¬offset + len ≤ file.dirent.fileSize ∧
        file.dirent.fileSize ≠ chain.length * clustSize file.fs ∧ ¬chain.length * clustSize file.fs ≤ offset := by
      simpa only [not_or] using hover
    -- the first byte of the range at or behind the size, in a buffer that holds something else
    have hin : file.dirent.fileSize - offset < min len (chain.length * clustSize file.fs - offset) := by omega
    obtain ⟨b, hb⟩ : ∃ b,
        (((chain.flatMap (clustBytes p file.fs)).drop offset).take len)[file.dirent.fileSize - offset]? =
        some b := ⟨_, List.getElem?_eq_getElem (by rw [hbytes]; exact hin)⟩
    have hbuf : (List.replicate len (b + 1)).length = len := List.length_replicate
    have hsame := hkeeps _ _ _ _ hbuf (hread _) (file.dirent.fileSize - offset) (by
      show file.dirent.fileSize ≤ _
      omega)
    rw [hbuf, getElem?_fill_of_lt (by rw [hbytes]; exact hin), hb,
      List.getElem?_replicate, if_pos (by omega)] at hsame
    have hne : b ≠ b + 1 := by bv_omega
    exact hne (Option.some.inj hsame)
  · intro hends
    refine ⟨?_, fun fuel hzero => ?_⟩
    · intro buf fuel res buf' hbuf hres i hi
      have hi' : file.dirent.fileSize ≤ offset + i := hi
      have hmore := read_mono chain.length hres
      have hfull := read_mono fuel (hread buf)
      rw [Nat.add_comm, hmore] at hfull
      obtain ⟨-, rfl⟩ := Prod.mk.inj (Option.some.inj hfull)
      rcases Nat.lt_or_ge i buf.length with hlt | hge
      · refine getElem?_fill_of_le ?_
        rw [hbytes]
        omega
      · rw [List.getElem?_eq_none (by rw [length_fill (by rw [hbytes]; omega)]; exact hge), List.getElem?_eq_none hge]
    · have hc := hdata 0 (touches_subset hchain 0 hzero)
      omega

include hnew hwf in
/-- `read` respects the size of a file of a sound volume exactly on the ranges that end in time. -/
theorem respectsSize_iff (hstored : Stored p file) : RespectsSize p readErr file len offset ↔
    EndsInTime (clustSize file.fs) file.dirent.fileSize offset len := by
  rcases hstored.clusters with ⟨hclust, hsize⟩ | ⟨chain, hchain, hdata, hlow, hhigh⟩
  · rw [hsize]
    exact respectsSize_of_empty hstored.regular hclust
  · exact respectsSize_of_chain hnew hwf hstored.regular hchain hdata hlow hhigh

end Sound

theorem stored_shortFile : Stored p shortFile :=
  ⟨by decide, Or.inr ⟨[2], chain_shortFile, by decide, by decide, by decide⟩⟩

theorem respectsSize_shortFile : RespectsSize .dev "" shortFile 5 0 :=
  (respectsSize_iff new_storedFloppy wellFormed_storedTable stored_shortFile).mpr (by decide)

def emptyFile : FatFile := { shortFile with dirent := { shortFile.dirent with fstClusLo := 0, fileSize := 0 } }

/-- Eight bytes of the file of five are those of its cluster, and an empty file has its cluster 0 turned into a
sector, which stops a development build. -/
theorem read_behind_size :
    new storedFloppy = some shortFile.fs ∧ shortFile.fs.WellFormed ∧ Stored .dev shortFile ∧ Stored .dev emptyFile ∧
    shortFile.fmeta.size = 5 ∧
    read .dev "" 1 shortFile (List.replicate 8 0) 0 = some (.ok (.ok ()), List.replicate 8 0x61) ∧
    read .release "" 1 shortFile (List.replicate 8 0) 0 = some (.ok (.ok ()), List.replicate 8 0x61) ∧
    touches .dev 1 emptyFile 1 0 = [0] ∧ touches .release 1 emptyFile 1 0 = [0] ∧
    read .dev "" 1 emptyFile [0] 0 = some (.error .panic, [0]) :=
  ⟨new_storedFloppy, wellFormed_storedTable, stored_shortFile, ⟨by decide, Or.inl ⟨by decide, rfl⟩⟩, rfl,
    by decide +kernel, by decide +kernel, by decide +kernel, by decide +kernel, by decide +kernel⟩

end FatFile

end UnixKernel
