import Ucore.Fs.FileRuns
import Ucore.Fs.KernelVfs
import Ucore.Fs.PathParse

/-!
# Reading a directory to its end

`file_getdirentry` with the buffer that it hands down to `sfs_getdirentry`, called again and again.

* `Iobuf` is the buffer. Its offset counts the bytes that have been moved, 256 for each name, so that the offset divided by
  256 is the number of entries in use that have been read.
* `OpenDir fd sin entries w`: the directory `sin`, whose slots are `entries`, is open as `fd`.
* `readDir` makes the calls. Whatever runs between them leaves the directory as it is.
* `getdirentry_complete_iff`: the calls yield the names of the slots in use, in their order, and then `-E_NOENT`, if and
  only if the directory has at most 1036 slots.
-/

namespace Ucore.Fs

open Ucore.Lib

/-! ### Buffers -/

/-- A buffer. `data` is the memory from its start on.
Source: `kern/fs/iobuf.h` `struct iobuf` -/
structure Iobuf where
  data : ℕ → UInt8
  offset : ℤ
  len : ℕ
  resid : ℕ
  resid_le : resid ≤ len

/-- Source: `kern/fs/iobuf.h` `iobuf_used`. This is also how far `io_base` is from the start of the buffer. -/
def Iobuf.used (iob : Iobuf) : ℕ := iob.len - iob.resid

/-- Source: `kern/fs/iobuf.c` `iobuf_init` -/
def iobufInit (base : ℕ → UInt8) (len : ℕ) (offset : ℤ) : Iobuf := ⟨base, offset, len, len, le_rfl⟩

/-- `h` is the assertion of the source.
Source: `kern/fs/iobuf.c` `iobuf_skip` -/
def iobufSkip (iob : Iobuf) (n : ℕ) (_h : n ≤ iob.resid) : Iobuf :=
  { iob with
    offset := toOff (iob.offset + n)
    resid := iob.resid - n
    resid_le := (Nat.sub_le ..).trans iob.resid_le }

/-- Move `data` into the buffer.
Source: `kern/fs/iobuf.c` `iobuf_move` -/
def iobufMove (iob : Iobuf) (data : ℕ → UInt8) (len : ℕ) : Iobuf × Option FsError :=
  let alen := min iob.resid len
  let moved := fun k => if iob.used ≤ k ∧ k < iob.used + alen then data (k - iob.used) else iob.data k
  (iobufSkip { iob with data := moved } alen (min_le_left ..), if len - alen = 0 then none else some .noMem)

/-! ### The calls -/

/-- `name` of an entry. Nobody looks at the bytes behind the end of the string, which are taken for 0. -/
def Dirent.nameBuf (entry : Dirent) : ℕ → UInt8 := strcpy (fun _ => 0) entry.name

/-- Source: `kern/fs/sfs/sfs_inode.c` `sfs_getdirentry` -/
def sfsGetdirentryIo (sin : ℕ) (iob : Iobuf) : SfsProg Iobuf := do
  let s ← Prog.get
  if iob.offset < 0 ∨ iob.offset % 256 ≠ 0 then
    Prog.throw .inval
  else if (iob.offset / 256).toNat > (s.inode sin).blocks then
    Prog.throw .noEnt
  else do
    let entry ← sfsGetdirentrySubNolock sin (s.inode sin).blocks 0 (iob.offset / 256).toNat
    match iobufMove iob entry.nameBuf 256 with
    | (iob, none) => pure iob
    | (_, some e) => Prog.throw e

/-- Source: `libs/dirent.h` `struct dirent` -/
structure UserDirent where
  offset : ℤ
  name : ℕ → UInt8

/-- The string in `name`. -/
def UserDirent.string (d : UserDirent) : CString := .ofBuffer d.name 256

/-- The machine. -/
abbrev KernelState := VfsState KernelFs Inode

section calls

variable (env : KernelEnv) (fd : ℤ)

/-- Source: `kern/fs/file.c` `file_getdirentry` -/
def fileGetdirentry (d : UserDirent) : VfsProg SfsPanic KernelFs Inode UserDirent := do
  let f ← vfd2file fd
  let iob ← vopOp (kernelVfs env) .vopGetdirentry f.node
    (byNode (fun ino => sfsGetdirentryIo ino (iobufInit d.name 256 d.offset)) (fun _ => Prog.throw .unimp) f.node)
  pure ⟨toOff (d.offset + iob.used), iob.data⟩

/-- At most `n` calls, each with what the one before has stored: the names, and the error that ends them. The machine is `w i`
before the call with the number `i`. -/
def readDir (w : ℕ → KernelState) : ℕ → ℕ → UserDirent → Option (List CString × FsError)
  | 0, _, _ => none
  | n + 1, i, d =>
    match (fileGetdirentry env fd d).run (w i) with
    | .ok d _ => (readDir w n (i + 1) d).map fun (names, e) => (d.string :: names, e)
    | .error e _ => some ([], e)
    | .panic _ => none

end calls

/-! ### A directory and its slots -/

/-- The slots of the directory, as far as the kernel finds them. -/
structure HoldsDir (s : Sfs) (sin : ℕ) (entries : List Dirent) : Prop where
  consistent : s.Consistent
  dir : s.IsDir sin
  length : (s.inode sin).blocks = entries.length
  entry : ∀ i (h : i < entries.length), i < 1036 → s.dirent sin i = entries[i]

/-- The directory is open. -/
structure OpenDir (fd : ℤ) (sin : ℕ) (entries : List Dirent) (w : KernelState) : Prop where
  holds : HoldsDir w.fs.sfs sin entries
  file : ∃ f, w.file fd = some f ∧ f.node = ⟨.sfs sin, .dirops⟩

/-- The entries in use. -/
def usedEntries (entries : List Dirent) : List Dirent := entries.filter fun e => e.ino ≠ 0

theorem usedEntries_cons (e : Dirent) (entries : List Dirent) :
    usedEntries (e :: entries) = if e.ino = 0 then usedEntries entries else e :: usedEntries entries := by
  rw [usedEntries, List.filter_cons]
  by_cases h : e.ino = 0
  · rw [if_pos h, if_neg (by simpa using h)]
    rfl
  · rw [if_neg h, if_pos (by simpa using h)]
    rfl

section runs

variable {s : Sfs} {sin : ℕ} {entries : List Dirent} {fd : ℤ} {w : KernelState} {env : KernelEnv}

/-- How the search for an entry in use ends, when `found` are those that can be reached and `slot` is its number. -/
def slotOutcome {π σ : Type} (entries : List Dirent) (stop : π) (s : σ) : Option Dirent → Outcome π FsError σ Dirent
  | some e => .ok e s
  | none => if entries.length ≤ 1036 then .error .noEnt s else .panic stop

/-- **The loop over the slots** counts the entries in use. -/
theorem sfsGetdirentrySubNolock_run (h : HoldsDir s sin entries) (n i slot : ℕ) (hn : i + n = entries.length)
    (hi : i ≤ 1036) : (sfsGetdirentrySubNolock sin n i slot).run s =
      slotOutcome entries .getRange s (usedEntries ((entries.take 1036).drop i))[slot]? := by
  induction n generalizing i slot with
  | zero =>
    rw [List.drop_of_length_le (by rw [List.length_take]; omega)]
    show Outcome.error FsError.noEnt s = if entries.length ≤ 1036 then _ else _
    rw [if_pos (by omega)]
  | succ n ih =>
    have hlt : i < entries.length := by omega
    have hread := sfsDirentReadNolock_run h.consistent h.dir (h.length ▸ hlt)
    rw [sfsGetdirentrySubNolock]
    by_cases hin : i < 1036
    · rw [if_pos hin, h.entry i hlt hin] at hread
      have hdrop : (entries.take 1036).drop i = entries[i] :: (entries.take 1036).drop (i + 1) := by
        rw [List.drop_eq_getElem_cons (by rw [List.length_take]; omega), List.getElem_take]
      rw [Prog.bind_of_ok hread, hdrop, usedEntries_cons]
      split_ifs with hzero hslot
      · exact ih (i + 1) slot (by omega) (by omega)
      · rw [hslot]
        rfl
      · obtain ⟨slot, rfl⟩ := Nat.exists_eq_succ_of_ne_zero hslot
        exact ih (i + 1) slot (by omega) (by omega)
    · -- the slot is past the indirect block
      rw [if_neg hin] at hread
      rw [Prog.bind_of_panic hread, List.drop_of_length_le (by rw [List.length_take]; omega)]
      show Outcome.panic SfsPanic.getRange = if entries.length ≤ 1036 then _ else _
      rw [if_neg (by omega)]

/-! ### One call -/

/-- A whole name fits into the buffer. -/
theorem iobufMove_init (base data : ℕ → UInt8) (len : ℕ) (offset : ℤ) :
    (iobufMove (iobufInit base len offset) data len).2 = none ∧
      (iobufMove (iobufInit base len offset) data len).1.used = len ∧
      (iobufMove (iobufInit base len offset) data len).1.data = fun k => if k < len then data k else base k := by
  simp [iobufMove, iobufInit, iobufSkip, Iobuf.used]

/-- The entries in use that the kernel can reach. -/
def reachedEntries (entries : List Dirent) : List Dirent := usedEntries (entries.take 1036)

theorem length_reachedEntries (entries : List Dirent) :
    (reachedEntries entries).length ≤ 1036 ∧ (reachedEntries entries).length ≤ entries.length := by
  have hle := List.length_filter_le (fun e : Dirent => decide (e.ino ≠ 0)) (entries.take 1036)
  rw [List.length_take] at hle
  exact ⟨hle.trans (min_le_left ..), hle.trans (min_le_right ..)⟩

theorem sfsGetdirentryIo_run (h : HoldsDir s sin entries) {k : ℕ} (hk : k ≤ entries.length) (base : ℕ → UInt8) :
    (sfsGetdirentryIo sin (iobufInit base 256 (256 * k))).run s =
      (slotOutcome entries .getRange s (reachedEntries entries)[k]?).andThen fun e =>
        pure (iobufMove (iobufInit base 256 (256 * k)) e.nameBuf 256).1 := by
  have hslot : ((256 * k : ℤ) / 256).toNat = k := by omega
  rw [sfsGetdirentryIo, Prog.bind_of_ok (Prog.run_get s)]
  simp only [iobufInit, hslot]
  rw [if_neg (by omega), if_neg (by rw [h.length]; omega), Prog.run_bind,
    sfsGetdirentrySubNolock_run h _ 0 k (by rw [h.length, Nat.zero_add]) (Nat.zero_le _), List.drop_zero, reachedEntries]
  rfl

/-- An operation of the file system. -/
theorem onFs_onDisk_run {α : Type} (m : SfsProg α) : (onFs (onDisk m) : VfsProg SfsPanic KernelFs Inode α).run w =
    match m.run w.fs.sfs with
    | .ok a s => .ok a { w with fs := { w.fs with sfs := s } }
    | .error e s => .error e { w with fs := { w.fs with sfs := s } }
    | .panic p => .panic (.inside p) := by
  simp only [onFs, onDisk, Prog.zoom]
  cases m.run w.fs.sfs <;> rfl

/-- What a call stores when it has found the entry `e`. -/
def UserDirent.next (d : UserDirent) (e : Dirent) : UserDirent where
  offset := toOff (d.offset + 256)
  name k := if k < 256 then e.nameBuf k else d.name k

theorem strlen_ofBuffer_le (buf : ℕ → UInt8) (n : ℕ) : (CString.ofBuffer buf n).strlen ≤ n := by
  have hle := (List.takeWhile_sublist (fun b : UInt8 => decide (b ≠ 0)) (l := (List.range n).map buf)).length_le
  rwa [List.length_map, List.length_range] at hle

/-- The string that a call stores is the name of the entry. -/
theorem UserDirent.string_next {e : Dirent} (h : e.name.strlen ≤ 255) (d : UserDirent) : (d.next e).string = e.name := by
  refine CString.ofBuffer_eq (by omega) (fun k hk => ?_) fun _ => ?_
  · show (if k < 256 then strcpy _ e.name k else _) = _
    rw [if_pos (by omega), strcpy, if_pos hk]
  · show (if e.name.strlen < 256 then strcpy _ e.name e.name.strlen else _) = 0
    rw [if_pos (by omega), strcpy, if_neg (Nat.lt_irrefl _), if_pos rfl]

/-- How a call ends, when `found` is the entry that it asks for. -/
def callOutcome (entries : List Dirent) (d : UserDirent) (w : KernelState) (found : Option Dirent) :
    Outcome (VfsPanic SfsPanic) FsError KernelState UserDirent :=
  (slotOutcome entries (.inside .getRange) w found).andThen fun e => pure (d.next e)

/-- **A call of `file_getdirentry`** whose offset is that of the entry `k`. -/
theorem fileGetdirentry_run (h : OpenDir fd sin entries w) {k : ℕ} (hk : k ≤ entries.length) {d : UserDirent}
    (hd : d.offset = 256 * k) : (fileGetdirentry env fd d).run w = callOutcome entries d w (reachedEntries entries)[k]? := by
  obtain ⟨f, hfile, hnode⟩ := h.file
  have hfd : (vfd2file fd : VfsProg SfsPanic KernelFs Inode _).run w = .ok f w := by
    rw [vfd2file, Prog.bind_of_ok (Prog.run_get w)]
    simp only [hfile, Prog.run_pure]
  have hop : ((kernelVfs env).ops ⟨.sfs sin, .dirops⟩).has .vopGetdirentry = true := rfl
  have hrun := sfsGetdirentryIo_run h.holds hk d.name
  rw [← hd] at hrun
  rw [fileGetdirentry, Prog.bind_of_ok hfd, hnode, vopOp, Prog.bind_assoc, Prog.bind_of_ok (Prog.run_assert_of _ _ hop),
    Prog.run_bind, byNode, onFs_onDisk_run, hrun, callOutcome]
  cases (reachedEntries entries)[k]? with
  | some e =>
    obtain ⟨-, hused, hdata⟩ := iobufMove_init d.name e.nameBuf 256 d.offset
    simp only [slotOutcome, Outcome.andThen_ok, Prog.run_pure, hused, hdata]
    rfl
  | none =>
    simp only [slotOutcome]
    split_ifs <;> rfl

/-! ### The call without its buffer -/

theorem sfsGetdirentrySubNolock_strlen {n i slot : ℕ} {s' : Sfs} {e : Dirent}
    (h : (sfsGetdirentrySubNolock sin n i slot).run s = .ok e s') : e.name.strlen ≤ 255 := by
  induction n generalizing i slot s with
  | zero => cases h
  | succ n ih =>
    rw [sfsGetdirentrySubNolock] at h
    obtain ⟨entry, s₁, hread, h⟩ := Prog.bind_eq_ok.mp h
    split_ifs at h
    · exact ih h
    · obtain ⟨rfl, -⟩ := (Outcome.ok.injEq ..).mp h
      rw [sfsDirentReadNolock] at hread
      obtain ⟨-, hread⟩ := Prog.assert_bind_eq_ok.mp (Prog.get_bind_eq_ok.mp hread)
      obtain ⟨ino, s₂, -, hread⟩ := Prog.bind_eq_ok.mp hread
      obtain ⟨inuse, s₃, -, hread⟩ := Prog.bind_eq_ok.mp hread
      obtain ⟨-, hread⟩ := Prog.assert_bind_eq_ok.mp hread
      obtain ⟨bytes, s₄, -, hread⟩ := Prog.bind_eq_ok.mp hread
      obtain ⟨rfl, -⟩ := (Outcome.ok.injEq ..).mp hread
      exact strlen_ofBuffer_le _ 255
    · exact ih h

theorem sfsGetdirentry_eq (base : ℕ → UInt8) (offset : ℤ) : (sfsGetdirentry sin offset).run s =
    ((sfsGetdirentryIo sin (iobufInit base 256 offset)).run s).andThen fun iob => pure (.ofBuffer iob.data 256, iob.used) := by
  rw [sfsGetdirentry, Prog.bind_of_ok (Prog.run_get s), sfsGetdirentryIo, Prog.bind_of_ok (Prog.run_get s)]
  show (if offset < 0 ∨ offset % 256 ≠ 0 then _ else _ : SfsProg _).run s =
    ((if offset < 0 ∨ offset % 256 ≠ 0 then _ else _ : SfsProg _).run s).andThen _
  by_cases hoff : offset < 0 ∨ offset % 256 ≠ 0
  · rw [if_pos hoff, if_pos hoff]
    rfl
  rw [if_neg hoff, if_neg hoff]
  show (if (offset / 256).toNat > (s.inode sin).blocks then _ else _ : SfsProg _).run s =
    ((if (offset / 256).toNat > (s.inode sin).blocks then _ else _ : SfsProg _).run s).andThen _
  by_cases hslot : (offset / 256).toNat > (s.inode sin).blocks
  · rw [if_pos hslot, if_pos hslot]
    rfl
  · rw [if_neg hslot, if_neg hslot, Prog.run_bind, Prog.run_bind]
    show _ = (Outcome.andThen ((sfsGetdirentrySubNolock sin (s.inode sin).blocks 0 (offset / 256).toNat).run s) _).andThen _
    cases hrun : (sfsGetdirentrySubNolock sin (s.inode sin).blocks 0 (offset / 256).toNat).run s with
    | ok e s' =>
      have hname := UserDirent.string_next (sfsGetdirentrySubNolock_strlen hrun) ⟨offset, base⟩
      obtain ⟨-, hused, hdata⟩ := iobufMove_init base e.nameBuf 256 offset
      show Outcome.ok (e.name, 256) s' = .ok (CString.ofBuffer (iobufMove (iobufInit base 256 offset) e.nameBuf 256).1.data 256,
        (iobufMove (iobufInit base 256 offset) e.nameBuf 256).1.used) s'
      rw [hused, hdata]
      exact congrArg (fun name => Outcome.ok (name, 256) s') hname.symm
    | error e s' => rfl
    | panic p => rfl

/-- **The call and its buffer** agree with the call that returns the name and the next offset. -/
theorem vfileGetdirentry_eq (d : UserDirent) : (vfileGetdirentry (kernelVfs env) fd d.offset).run w =
    ((fileGetdirentry env fd d).run w).andThen fun d => pure (d.string, d.offset) := by
  rw [vfileGetdirentry, fileGetdirentry, Prog.run_bind, Prog.run_bind]
  cases hfd : (vfd2file fd : VfsProg SfsPanic KernelFs Inode _).run w with
  | error e s => rfl
  | panic p => rfl
  | ok f w₁ =>
    simp only [Outcome.andThen_ok, vopOp, Prog.bind_assoc]
    by_cases hop : ((kernelVfs env).ops f.node).has .vopGetdirentry = true
    · rw [Prog.bind_of_ok (Prog.run_assert_of _ _ hop), Prog.bind_of_ok (Prog.run_assert_of _ _ hop)]
      obtain ⟨readable, writable, pos, node, ops⟩ := f
      cases node with
      | device name => rfl
      | sfs ino =>
        show (onFs (onDisk (sfsGetdirentry ino d.offset)) >>= _).run w₁ =
          ((onFs (onDisk (sfsGetdirentryIo ino (iobufInit d.name 256 d.offset))) >>= _).run w₁).andThen _
        rw [Prog.run_bind, Prog.run_bind, onFs_onDisk_run, onFs_onDisk_run, sfsGetdirentry_eq d.name]
        cases (sfsGetdirentryIo ino (iobufInit d.name 256 d.offset)).run w₁.fs.sfs <;> rfl
    · rw [Prog.bind_of_panic (Prog.run_assert_of_not _ _ hop), Prog.bind_of_panic (Prog.run_assert_of_not _ _ hop)]
      rfl

/-! ### All calls -/

/-- The name of an entry that can be reached is at most 255 bytes long. -/
theorem HoldsDir.strlen_le (h : HoldsDir s sin entries) {e : Dirent} (he : e ∈ reachedEntries entries) :
    e.name.strlen ≤ 255 := by
  obtain ⟨i, hi, rfl⟩ := List.getElem_of_mem (List.mem_filter.mp he).1
  rw [List.length_take, lt_min_iff] at hi
  rw [List.getElem_take, ← h.entry i hi.2 hi.1]
  exact strlen_ofBuffer_le _ 255

/-- **The calls from the entry `k` on.** -/
theorem readDir_run {w : ℕ → KernelState} (h : ∀ i, OpenDir fd sin entries (w i)) (n i : ℕ) {k : ℕ} {d : UserDirent}
    (hk : k ≤ (reachedEntries entries).length) (hd : d.offset = 256 * k) : readDir env fd w n i d =
      if entries.length ≤ 1036 ∧ (reachedEntries entries).length - k < n then
        some (((reachedEntries entries).drop k).map Dirent.name, .noEnt)
      else none := by
  have hle := length_reachedEntries entries
  induction n generalizing i k d with
  | zero => rw [if_neg (by omega), readDir]
  | succ n ih =>
    rw [readDir, fileGetdirentry_run (h i) (hk.trans hle.2) hd, callOutcome]
    rcases Nat.lt_or_ge k (reachedEntries entries).length with hlt | hge
    · have hnext : (d.next (reachedEntries entries)[k]).offset = 256 * ((k + 1 : ℕ) : ℤ) := by
        show toOff (d.offset + 256) = _
        rw [toOff_of_lt (by omega) (by omega), hd]
        omega
      have hname := d.string_next ((h i).holds.strlen_le (List.getElem_mem hlt))
      rw [List.getElem?_eq_getElem hlt, List.drop_eq_getElem_cons hlt, List.map_cons]
      simp only [slotOutcome, Outcome.andThen_ok, Prog.run_pure]
      rw [ih (i + 1) hlt hnext, hname]
      split_ifs with hrest hall hall
      · rfl
      · omega
      · omega
      · rfl
    · -- the entries are used up
      rw [List.getElem?_eq_none hge, List.drop_of_length_le hge]
      simp only [slotOutcome]
      split_ifs with hlen hall hall
      · rfl
      · omega
      · omega
      · rfl

end runs

/-- The names of the entries in use. -/
def usedNames (entries : List Dirent) : List CString := (usedEntries entries).map Dirent.name

/-- **Reading a directory from the offset 0 on** yields the names in use, in the order of their slots, and then `-E_NOENT`,
exactly when there are at most 1036 slots. -/
theorem getdirentry_complete_iff (env : KernelEnv) (fd : ℤ) (sin : ℕ) (entries : List Dirent) (w : ℕ → KernelState)
    (h : ∀ i, OpenDir fd sin entries (w i)) (name : ℕ → UInt8) :
    (∃ n, readDir env fd w n 0 ⟨0, name⟩ = some (usedNames entries, .noEnt)) ↔ entries.length ≤ 1036 := by
  have hrun : ∀ n, readDir env fd w n 0 ⟨0, name⟩ = _ := fun n => readDir_run h n 0 (k := 0) (Nat.zero_le _) rfl
  constructor
  · rintro ⟨n, hn⟩
    rw [hrun] at hn
    by_contra hgt
    rw [if_neg fun hand => hgt hand.1] at hn
    cases hn
  · intro hle
    refine ⟨entries.length + 1, ?_⟩
    have hlen := (length_reachedEntries entries).2
    rw [hrun, if_pos ⟨hle, by omega⟩, List.drop_zero, reachedEntries, List.take_of_length_le hle]
    rfl

/-! ### A directory with one entry in use -/

section dirImage

/-- An image with a directory of at least 1036 slots in the blocks of `fullFile`. Only the first slot is in use. -/
def dirImage (blocks : ℕ) : Sfs := { fullFile with
  disk := fun b => if b = 100 then fun k => if k = 0 then 7 else if k = 4 then 97 else 0 else fullFile.disk b
  inode := fun _ => ⟨4096 * blocks, .dir, blocks, fun i => 100 + i, 112, false⟩ }

/-- Its slots. -/
def oneEntry (blocks : ℕ) : List Dirent := ⟨7, nameA⟩ :: List.replicate blocks ⟨0, ⟨[], nofun⟩⟩

variable {blocks : ℕ}

theorem dirImage_slot (ino i : ℕ) : (dirImage blocks).slot ino i = fullFile.slot ino i := by
  have hdisk : (dirImage blocks).disk 112 = fullFile.disk 112 := rfl
  have hentry : (dirImage blocks).entry 112 (i - 12) = fullFile.entry 112 (i - 12) := by rw [Sfs.entry, hdisk, Sfs.entry]
  rw [Sfs.slot, Sfs.slot]
  show (if i < 12 then 100 + i else if i < 1036 ∧ 112 ≠ 0 then (dirImage blocks).entry 112 (i - 12) else 0) = _
  rw [hentry]
  rfl

theorem dirImage_consistent (h : 1036 ≤ blocks) : (dirImage blocks).Consistent := by
  have hfull := fullFile_consistent.1
  have hblk : (dirImage blocks).blk = fullFile.blk := by
    funext o
    cases o with
    | inode ino => rfl
    | indirect ino => rfl
    | data ino i =>
      show (if ino ∈ fullFile.inos then (dirImage blocks).slot ino i else 0) = _
      rw [dirImage_slot]
      rfl
  refine ⟨hfull.shape, hfull.count, fun o => ?_, fun o o' => ?_, fun ino hino i hi => ?_⟩
  · rw [hblk]
    exact hfull.used o
  · rw [hblk]
    exact hfull.inj o o'
  · rw [dirImage_slot]
    exact hfull.tail ino hino i (h.trans hi)

theorem dirImage_dirent {i : ℕ} (hi : i < 1036) :
    (dirImage blocks).dirent 4 i = if i = 0 then ⟨7, nameA⟩ else ⟨0, ⟨[], nofun⟩⟩ := by
  rw [Sfs.dirent, dirImage_slot, fullFile_slot]
  by_cases hzero : i = 0
  · rw [if_pos hzero, if_pos (by omega), hzero]
    refine (Dirent.mk.injEq ..).mpr ⟨rfl, CString.ofBuffer_eq (by decide) (fun k hk => ?_) fun _ => rfl⟩
    obtain rfl : k = 0 := Nat.lt_one_iff.mp hk
    rfl
  · have hdisk : (dirImage blocks).disk (if i < 12 then 100 + i else if i < 1036 then 101 + i else 0) = fun _ => 0 := by
      have hne : ∀ b, b ≠ 100 → b ≠ 112 → (dirImage blocks).disk b = fun _ => 0 := fun b h₁ h₂ => by
        show (if b = 100 then _ else fullFile.disk b) = _
        rw [if_neg h₁]
        funext k
        exact if_neg h₂
      exact hne _ (by split_ifs <;> omega) (by split_ifs <;> omega)
    rw [if_neg hzero, hdisk]
    exact (Dirent.mk.injEq ..).mpr ⟨rfl, CString.ofBuffer_eq (Nat.zero_le _) (fun k hk => absurd hk (Nat.not_lt_zero k)) fun _ => rfl⟩

theorem dirImage_holds (h : 1035 ≤ blocks) : HoldsDir (dirImage (blocks + 1)) 4 (oneEntry blocks) where
  consistent := dirImage_consistent (by omega)
  dir := by
    refine ⟨List.mem_singleton.mpr rfl, rfl, fun i _ hi => ?_⟩
    rw [dirImage_slot, fullFile_slot]
    split_ifs <;> omega
  length := by simp [dirImage, oneEntry]
  entry i hlen hi := by
    rw [dirImage_dirent hi]
    cases i with
    | zero => rfl
    | succ i => simp [oneEntry]

/-- The directory is open as the descriptor 0. -/
def dirKernel (blocks : ℕ) : KernelState where
  fs := ⟨dirImage (blocks + 1), [], []⟩
  fdArray fd := if fd = 0 then some ⟨true, false, 0, ⟨.sfs 4, .dirops⟩⟩ else none

theorem dirKernel_open (h : 1035 ≤ blocks) : OpenDir 0 4 (oneEntry blocks) (dirKernel blocks) :=
  ⟨dirImage_holds h, ⟨true, false, 0, ⟨.sfs 4, .dirops⟩⟩, rfl, rfl⟩

end dirImage

theorem getdirentry_complete_one :
    (∃ n, readDir ⟨⟨none, none, []⟩, ⟨fun _ => 1, []⟩, 2000⟩ 0 (fun _ => dirKernel 1035) n 0 ⟨0, fun _ => 0⟩ =
      some (usedNames (oneEntry 1035), .noEnt)) ↔ (oneEntry 1035).length ≤ 1036 :=
  getdirentry_complete_iff _ 0 4 _ _ (fun _ => dirKernel_open (Nat.le_refl _)) _

/-- A directory of 1037 slots. -/
theorem not_getdirentry_complete : ¬ ∀ (env : KernelEnv) (fd : ℤ) (sin : ℕ) (entries : List Dirent) (w : ℕ → KernelState),
    (∀ i, OpenDir fd sin entries (w i)) → ∀ name : ℕ → UInt8,
      ∃ n, readDir env fd w n 0 ⟨0, name⟩ = some (usedNames entries, .noEnt) := fun hall => by
  have hopen : ∀ _ : ℕ, OpenDir 0 4 (oneEntry 1036) (dirKernel 1036) := fun _ => dirKernel_open (by omega)
  obtain ⟨n, hn⟩ := hall ⟨⟨none, none, []⟩, ⟨fun _ => 1, []⟩, 2000⟩ 0 4 _ _ hopen fun _ => 0
  have hlen : ¬ (oneEntry 1036).length ≤ 1036 := by
    rw [oneEntry, List.length_cons, List.length_replicate]
    omega
  rw [readDir_run hopen n 0 (k := 0) (Nat.zero_le _) rfl, if_neg fun hand => hlen hand.1] at hn
  cases hn

end Ucore.Fs
