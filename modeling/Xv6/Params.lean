import Mathlib.Tactic

/-! Compile-time constants of the kernel and of mkfs, for the `util` lab configuration. -/
namespace Xv6

abbrev nproc : ℕ := 64

/-- `NINODE`, `NFILE`, `NOFILE`, `NDEV`: sizes of the in-memory tables. -/
abbrev ninode : ℕ := 50
abbrev nfile : ℕ := 100
abbrev nofile : ℕ := 16
abbrev ndev : ℕ := 10

abbrev maxopblocks : ℕ := 10

abbrev logsize : ℕ := maxopblocks * 3

abbrev nbuf : ℕ := maxopblocks * 3

abbrev fssize : ℕ := 2000
abbrev maxpath : ℕ := 128

/-- `MAXARG`, the number of arguments of `exec`, and `USERSTACK`, the pages of the user stack. -/
abbrev maxarg : ℕ := 32
abbrev userstack : ℕ := 2

abbrev rootdev : ℕ := 1
abbrev rootino : ℕ := 1
abbrev bsize : ℕ := 1024
abbrev ndirect : ℕ := 12
abbrev nindirect : ℕ := bsize / 4
abbrev maxfile : ℕ := ndirect + nindirect
abbrev dirsiz : ℕ := 14

/-- `sizeof(struct dinode)` and `sizeof(struct dirent)`. -/
abbrev dinodeBytes : ℕ := 64
abbrev direntBytes : ℕ := 16

/-- `IPB`, inodes per block, and `BPB`, bitmap bits per block. -/
abbrev ipb : ℕ := bsize / dinodeBytes
abbrev bpb : ℕ := bsize * 8

/-- `NINODES`: the number of inodes of an image made by mkfs. -/
abbrev ninodes : ℕ := 200

-- Numerals stand for processes and table entries in runs on fixed inputs.
instance neZeroOne : NeZero 1 := ⟨one_ne_zero⟩

instance neZeroTwo : NeZero 2 := ⟨two_ne_zero⟩

instance neZeroThree : NeZero 3 := ⟨three_ne_zero⟩

instance neZeroNproc : NeZero nproc := ⟨by decide⟩

instance neZeroNinode : NeZero ninode := ⟨by decide⟩

instance neZeroNfile : NeZero nfile := ⟨by decide⟩

instance neZeroNofile : NeZero nofile := ⟨by decide⟩

instance neZeroNbuf : NeZero nbuf := ⟨by decide⟩

end Xv6
