import UnixKernel.FlatDevice

/-! The transfers of `device/nvme.rs` through the buffer they go through. A command moves as many bytes as the
buffer has, so everything rests on the buffer being one block long: it is when the block size is a power of two.
Then the device is a flat array as long as its commands succeed, and stops for no request it has the blocks for. -/

namespace UnixKernel

open FlatArray

/-! ### The buffer -/

/-- The allocator has a buffer for a call. -/
def HostMemory.Gives (host : HostMemory) (size : Nat) (log : List Access) : Prop :=
  ∃ ptr s', PhysPageBuf.new host.pg host.ops (host.phys log) size = .ok (some ptr, s')

/-! ### One command -/

/-- Commands for blocks that the namespace does not have are refused. -/
structure NvmeNs.Bounded (ns : NvmeNs) : Prop where
  count_lt : ns.blkCnt < 2 ^ 64
  refuses : ∀ log a, ns.blkCnt ≤ a.lba → ∃ e, ns.error log a = some e

/-- The call stops with the error of a command for one of the blocks from `lo` up to `hi`. -/
def NvmeNs.Failed (ns : NvmeNs) (lo hi : Nat) (stop : Stop) : Prop :=
  ∃ e log a, stop = .err e ∧ lo ≤ a.lba ∧ a.lba < hi ∧ ns.error log a = some e

theorem NvmeNs.Failed.mono {ns : NvmeNs} {lo hi lo' hi' : Nat} {stop : Stop} (h : ns.Failed lo hi stop)
    (hlo : lo' ≤ lo) (hhi : hi ≤ hi') : ns.Failed lo' hi' stop := by
  obtain ⟨e, log, a, hstop, hle, hlt, herror⟩ := h
  exact ⟨e, log, a, hstop, hlo.trans hle, hlt.trans_le hhi, herror⟩

namespace BlockDeviceNVMe

variable {p : Profile} {host : HostMemory} {ns : NvmeNs}

theorem command_ends (hns : ns.Bounded) (a : Access) (d : Disk) :
    Eff.Ends (fun _ d' => d'.byte = d.byte ∧ a.lba < ns.blkCnt) (ns.Failed a.lba (a.lba + 1)) (ns.command a) d := by
  unfold Eff.Ends NvmeNs.command
  cases herror : ns.error d.log a with
  | some e => exact ⟨e, d.log, a, rfl, le_rfl, Nat.lt_succ_self _, herror⟩
  | none =>
      refine ⟨rfl, Nat.lt_of_not_le fun hle => ?_⟩
      obtain ⟨e, he⟩ := hns.refuses d.log a hle
      rw [he] at herror
      cases herror

theorem nsRead_ends (hns : ns.Bounded) (lba : Nat) (pabuf : List Byte) (d : Disk) :
    Eff.Ends (fun buf d' => buf = window (d.flat ns.blkSz) (lba * ns.blkSz) pabuf.length ∧
        d'.flat ns.blkSz = d.flat ns.blkSz ∧ lba < ns.blkCnt)
      (ns.Failed lba (lba + 1)) (nsRead ns lba pabuf) d := by
  refine (command_ends hns (.read lba) d).bind ?_
  rintro - d' ⟨hbyte, hlt⟩
  have hflat : d'.flat ns.blkSz = d.flat ns.blkSz := Disk.flat_congr hbyte
  exact ⟨by rw [hflat], hflat, hlt⟩

theorem nsWrite_ends (hns : ns.Bounded) (lba : Nat) (pabuf : List Byte) (d : Disk) :
    Eff.Ends (fun _ d' => d'.flat ns.blkSz = splice (d.flat ns.blkSz) (lba * ns.blkSz) pabuf ∧ lba < ns.blkCnt)
      (ns.Failed lba (lba + 1)) (nsWrite ns lba pabuf) d := by
  refine (command_ends hns (.write lba) d).bind ?_
  rintro - d' ⟨hbyte, hlt⟩
  have hflat : d'.flat ns.blkSz = d.flat ns.blkSz := Disk.flat_congr hbyte
  refine ⟨?_, hlt⟩
  funext k
  show splice (d'.flat ns.blkSz) (lba * ns.blkSz) pabuf (k / ns.blkSz * ns.blkSz + k % ns.blkSz) = _
  rw [Nat.div_add_mod', hflat]

/-! ### The chunks of a call -/

section Chunks

variable {lba : Nat} (hns : ns.Bounded)

include hns

theorem refresh_ends {i : Nat} (hlba : lba + i < 2 ^ 64) (ck : List Byte) {pabuf : List Byte}
    (hbuf : pabuf.length = ns.blkSz) (d : Disk) :
    Eff.Ends (fun buf d' => buf.length = ns.blkSz ∧ d'.flat ns.blkSz = d.flat ns.blkSz ∧
        (ck.length < ns.blkSz → buf = window (d.flat ns.blkSz) ((lba + i) * ns.blkSz) ns.blkSz))
      (ns.Failed (lba + i) (lba + i + 1)) (refresh p ns lba i ck pabuf) d := by
  unfold refresh
  split_ifs with hshort
  · rw [Profile.fit_of_lt hlba, Eff.lift_ok_bind]
    refine (nsRead_ends hns (lba + i) pabuf d).mono ?_ fun _ h => h
    rintro buf d' ⟨rfl, hflat, -⟩
    exact ⟨by rw [length_window, hbuf], hflat, fun _ => by rw [hbuf]⟩
  · exact ⟨hbuf, rfl, fun h => absurd h hshort⟩

/-- One chunk: the buffer stays one block long, and the chunk is all that changes on the disk. -/
theorem writeChunk_ends {i : Nat} (hlba : lba + i < 2 ^ 64) {ck pabuf : List Byte} (hck : ck.length ≤ ns.blkSz)
    (hbuf : pabuf.length = ns.blkSz) (d : Disk) :
    Eff.Ends (fun buf d' => buf.length = ns.blkSz ∧
        d'.flat ns.blkSz = splice (d.flat ns.blkSz) ((lba + i) * ns.blkSz) ck ∧ lba + i < ns.blkCnt)
      (ns.Failed (lba + i) (lba + i + 1)) (writeChunk p ns lba i ck pabuf) d := by
  refine (refresh_ends hns hlba ck hbuf d).bind ?_
  rintro buf d₁ ⟨hlen, hflat, hshort⟩
  rw [Slice.copyFrom_zero rfl (by omega), Eff.lift_ok_bind, Profile.fit_of_lt hlba, Eff.lift_ok_bind]
  refine (nsWrite_ends hns (lba + i) (ck ++ buf.drop ck.length) d₁).bind ?_
  rintro - d₂ ⟨hd₂, hlt⟩
  refine ⟨?_, ?_, hlt⟩
  · rw [List.length_append, List.length_drop]
    omega
  · rw [hd₂, hflat]
    rcases Nat.lt_or_ge ck.length ns.blkSz with h | h
    · rw [hshort h, splice_completed hck]
    · rw [List.drop_eq_nil_of_le (by omega), List.append_nil]

theorem writeChunks_ends {chunks i : Nat} {buf pabuf : List Byte} (hlba : chunks ≠ 0 → lba + i < 2 ^ 64)
    (hlen : buf.length ≤ chunks * ns.blkSz) (hbuf : pabuf.length = ns.blkSz) (d : Disk) :
    Eff.Ends (fun _ d' => d'.flat ns.blkSz = splice (d.flat ns.blkSz) ((lba + i) * ns.blkSz) buf)
      (ns.Failed (lba + i) (lba + i + chunks)) (writeChunks p ns lba chunks i buf pabuf) d := by
  induction chunks generalizing i buf pabuf d with
  | zero =>
      have hnil : buf = [] := List.eq_nil_of_length_eq_zero (by omega)
      rw [hnil, splice_nil]
      exact rfl
  | succ chunks ih =>
      have hone := writeChunk_ends (p := p) hns (hlba (by omega)) (List.length_take_le ns.blkSz buf) hbuf d
      refine (hone.mono (fun _ _ h => h) fun _ h => h.mono le_rfl (by omega)).bind ?_
      rintro pabuf' d₁ ⟨hbuf', hd₁, hlt⟩
      have hcount := hns.count_lt
      have hrest : (buf.drop ns.blkSz).length ≤ chunks * ns.blkSz := by
        rw [Nat.succ_mul] at hlen
        rw [List.length_drop]
        omega
      refine (ih (i := i + 1) (fun _ => by omega) hrest hbuf' d₁).mono ?_ fun _ h => h.mono (by omega) (by omega)
      intro _ d' hd'
      rw [hd', hd₁, block_succ, splice_chunk]

theorem readChunks_ends {chunks i len : Nat} {pabuf : List Byte} (hlba : chunks ≠ 0 → lba + i < 2 ^ 64)
    (hlen : len ≤ chunks * ns.blkSz) (hbuf : pabuf.length = ns.blkSz) (d : Disk) :
    Eff.Ends (fun out d' => out = window (d.flat ns.blkSz) ((lba + i) * ns.blkSz) len ∧
        d'.flat ns.blkSz = d.flat ns.blkSz)
      (ns.Failed (lba + i) (lba + i + chunks)) (readChunks p ns lba chunks i len pabuf) d := by
  induction chunks generalizing i len pabuf d with
  | zero =>
      have hzero : len = 0 := by omega
      rw [hzero]
      exact ⟨rfl, rfl⟩
  | succ chunks ih =>
      rw [readChunks, Profile.fit_of_lt (hlba (by omega)), Eff.lift_ok_bind]
      refine ((nsRead_ends hns (lba + i) pabuf d).mono (fun _ _ h => h) fun _ h => h.mono le_rfl (by omega)).bind ?_
      rintro buf d₁ ⟨rfl, hd₁, hlt⟩
      have hcount := hns.count_lt
      have hrest : len - ns.blkSz ≤ chunks * ns.blkSz := by
        rw [Nat.succ_mul] at hlen
        omega
      rw [hbuf, Slice.range_zero (by rw [length_window]; omega), Eff.lift_ok_bind, take_window (by omega)]
      refine ((ih (i := i + 1) (fun _ => by omega) hrest length_window d₁).mono (fun _ _ h => h)
        fun _ h => h.mono (by omega) (by omega)).bind ?_
      rintro rest d₂ ⟨rfl, hd₂⟩
      refine ⟨?_, hd₂.trans hd₁⟩
      rw [hd₁, block_succ, window_chunk]

end Chunks

/-! ### Whole calls -/

theorem pageBuf_ends (size : Nat) (d : Disk) :
    Eff.Ends (fun buf d' => buf.length = sizeAlign host.pg size ∧ d' = d) (fun _ => ¬host.Gives size d.log)
      (pageBuf host size) d := by
  unfold Eff.Ends pageBuf HostMemory.Gives
  rcases hnew : PhysPageBuf.new host.pg host.ops (host.phys d.log) size with e | ⟨_ | ptr, s'⟩
  · rintro ⟨ptr, s', h⟩
    cases h
  · rintro ⟨ptr, s'', h⟩
    cases h
  · exact ⟨length_window.trans (PhysPageBuf.new_size hnew), rfl⟩

theorem not_stopped {size lo hi : Nat} {log : List Access} (hgives : host.Gives size log)
    (hanswers : ∀ log a, lo ≤ a.lba → a.lba < hi → ns.error log a = none) (stop : Stop) :
    ¬(¬host.Gives size log ∨ ns.Failed lo hi stop) := by
  rintro (hnone | ⟨e, log', a, -, hlo, hhi, herror⟩)
  · exact hnone hgives
  · rw [hanswers log' a hlo hhi] at herror
    cases herror

section Calls

variable {k lba : Nat} (hbs : ns.blkSz = 2 ^ k) (hns : ns.Bounded) (hlba : lba < 2 ^ 64)

include hbs hns hlba

omit hns hlba in
theorem call_ends {α : Type} {Q : α → Disk → Prop} {E : Stop → Prop} {f : Nat → List Byte → DiskM α} {len : Nat}
    {d : Disk} (hf : ∀ pabuf, pabuf.length = ns.blkSz → Eff.Ends Q E (f (blocksOf ns.blkSz len) pabuf) d) :
    Eff.Ends Q (fun stop => ¬host.Gives ns.blkSz d.log ∨ E stop)
      (do
        let pabuf ← pageBuf host ns.blkSz
        let chunks ← Eff.lift (chunkCount ns len)
        f chunks pabuf) d := by
  have hne : ns.blkSz ≠ 0 := hbs ▸ (Nat.two_pow_pos k).ne'
  refine ((pageBuf_ends ns.blkSz d).mono (fun _ _ h => h) fun _ => Or.inl).bind ?_
  rintro pabuf d' ⟨hlen, rfl⟩
  rw [hbs, sizeAlign_two_pow, ← hbs] at hlen
  rw [chunkCount, ensure_eq_ok.mpr hne, ok_bind]
  exact (hf pabuf hlen).mono (fun _ _ h => h) fun _ => Or.inr

theorem writeBlock_ends (buf : List Byte) (d : Disk) :
    Eff.Ends (fun _ d' => d'.flat ns.blkSz = splice (d.flat ns.blkSz) (lba * ns.blkSz) buf)
      (fun stop => ¬host.Gives ns.blkSz d.log ∨ ns.Failed lba (lba + blocksOf ns.blkSz buf.length) stop)
      (writeBlock p host ns buf lba) d := by
  have hpos : 0 < ns.blkSz := hbs ▸ Nat.two_pow_pos k
  apply call_ends hbs
  intro pabuf hlen
  exact writeChunks_ends hns (fun _ => hlba) (le_blocksOf_mul hpos) hlen d

theorem readBlock_ends (len : Nat) (d : Disk) :
    Eff.Ends (fun out d' => out = window (d.flat ns.blkSz) (lba * ns.blkSz) len ∧
        d'.flat ns.blkSz = d.flat ns.blkSz)
      (fun stop => ¬host.Gives ns.blkSz d.log ∨ ns.Failed lba (lba + blocksOf ns.blkSz len) stop)
      (readBlock p host ns len lba) d := by
  have hpos : 0 < ns.blkSz := hbs ▸ Nat.two_pow_pos k
  apply call_ends hbs
  intro pabuf hlen
  exact readChunks_ends hns (fun _ => hlba) (le_blocksOf_mul hpos) hlen d

omit hlba

/-- The device is a flat array as long as there are buffers and its commands succeed. -/
theorem flat_of_gives (hgives : ∀ log, host.Gives ns.blkSz log)
    (hanswers : ∀ log a, a.lba < ns.blkCnt → ns.error log a = none) : (toBlockDevice p host ns).Flat 0 where
  pos := by
    show 0 < ns.blkSz
    rw [hbs]
    exact Nat.two_pow_pos k
  count_lt := hns.count_lt
  read := by
    intro len lba d hin
    have hcount := hns.count_lt
    have hlba : lba < 2 ^ 64 := Nat.lt_of_le_of_lt ((Nat.le_add_right _ _).trans hin) hcount
    obtain ⟨out, d', hread, rfl, hd'⟩ := (readBlock_ends (p := p) hbs hns hlba len d).returns
      (not_stopped (hgives d.log) fun log a _ hlt => hanswers log a (hlt.trans_le hin))
    refine ⟨d', ?_, hd'⟩
    rw [Nat.zero_add]
    exact hread
  write := by
    intro buf lba d hin
    have hcount := hns.count_lt
    have hlba : lba < 2 ^ 64 := Nat.lt_of_le_of_lt ((Nat.le_add_right _ _).trans hin) hcount
    obtain ⟨_, d', hwrite, hd'⟩ := (writeBlock_ends (p := p) hbs hns hlba buf d).returns
      (not_stopped (hgives d.log) fun log a _ hlt => hanswers log a (hlt.trans_le hin))
    refine ⟨d', hwrite, ?_⟩
    rw [Nat.zero_add]
    exact hd'

omit hbs hns in
theorem raises_of_ends {α : Type} {m : DiskM α} {Q : Disk → α → Disk → Prop} {hi : Nat}
    (hgives : ∀ log, host.Gives ns.blkSz log)
    (h : ∀ d, Eff.Ends (Q d) (fun stop => ¬host.Gives ns.blkSz d.log ∨ ns.Failed lba hi stop) m d) :
    Eff.Raises (· ≠ .panic) m := by
  intro d e d' hm
  have hd := h d
  unfold Eff.Ends at hd
  rw [hm] at hd
  rcases hd with hnone | ⟨msg, log, a, rfl, -⟩
  · exact absurd (hgives d.log) hnone
  · exact nofun

/-- With buffers the device stops for no request it has the blocks for, whatever its commands end with. -/
theorem calm_of_gives (hgives : ∀ log, host.Gives ns.blkSz log) : (toBlockDevice p host ns).Calm where
  pos := show 0 < ns.blkSz from hbs ▸ Nat.two_pow_pos k
  count_lt := hns.count_lt
  read len _ hin := raises_of_ends hgives (readBlock_ends hbs hns
    (Nat.lt_of_le_of_lt ((Nat.le_add_right _ _).trans hin) hns.count_lt) len)
  write buf _ hin := raises_of_ends hgives (writeBlock_ends hbs hns
    (Nat.lt_of_le_of_lt ((Nat.le_add_right _ _).trans hin) hns.count_lt) buf)
  length := (lawful (p := p) (hbs ▸ Nat.two_pow_pos k)).length

end Calls

/-- A namespace of eight blocks. -/
def sampleNs : NvmeNs where
  blkSz := 512
  blkCnt := 8
  error _ a := if a.lba < 8 then none else some "NVMe write error: LbaOutOfRange"

theorem sampleNs_bounded : sampleNs.Bounded where
  count_lt := by decide
  refuses log a h := ⟨_, if_neg (Nat.not_lt.mpr h)⟩

theorem sampleHost_gives (log : List Access) : sampleHost.Gives 512 log := by
  have hbuf : (PhysPageBuf.new .size4kiB (PhysAlloc.tableOps .size4kiB 1) PhysAlloc.sample 512).map Prod.fst =
      .ok (some ⟨0x300000, 512⟩) := by
    decide +kernel
  obtain ⟨⟨r, s'⟩, hnew, rfl⟩ := map_eq_ok.mp hbuf
  exact ⟨_, s', hnew⟩

end BlockDeviceNVMe

end UnixKernel
