import LabSO.Kernel.Log

/-! The layout that `mkfs.c` gives a file system: boot block, superblock, log, inode blocks, free bit map, data blocks. -/

namespace LabSO.Mkfs
open Kernel

/-- Size of file system in blocks. -/
def FSSIZE : Nat := 2000

def NINODES : Nat := 200

/-- Inodes per block. -/
def IPB : Nat := BSIZE / 64

def nbitmap : Nat := FSSIZE / (BSIZE * 8) + 1

def ninodeblocks : Nat := NINODES / IPB + 1

def nlog : Nat := LOGSIZE

/-- Number of meta blocks (boot, sb, nlog, inode, bitmap). -/
def nmeta : Nat := 2 + nlog + ninodeblocks + nbitmap

/-- Number of data blocks. -/
def nblocks : Nat := FSSIZE - nmeta

/-- The superblock that `main` writes. -/
def sb : Superblock where
  magic := FSMAGIC
  size := .ofNat FSSIZE
  nblocks := .ofNat nblocks
  ninodes := .ofNat NINODES
  nlog := .ofNat nlog
  logstart := 2
  inodestart := .ofNat (2 + nlog)
  bmapstart := .ofNat (2 + nlog + ninodeblocks)

end LabSO.Mkfs
