import Ruzu.Kernel.MemoryBlock

/-!
# Page groups

`KPageGroup` as in `k_page_group.rs`: block infos with 32-bit page numbers,
the last of which grows when the next block continues it. Whether the block
info manager serves a request is an arbitrary stream, so that every state of
its slab is covered.
-/

set_option autoImplicit false

namespace Ruzu.PageGroup
open Ruzu.MemoryBlock (pageSize)

structure KBlockInfo where
  pageIndex : ℕ
  numPages : ℕ
deriving DecidableEq

namespace KBlockInfo

/-- Both numbers are cut to 32 bits. -/
def ofBlock (addr np : ℕ) : KBlockInfo := ⟨addr / pageSize % 2 ^ 32, np % 2 ^ 32⟩

def getAddress (b : KBlockInfo) : ℕ := b.pageIndex * pageSize
def getEndAddress (b : KBlockInfo) : ℕ := (b.pageIndex + b.numPages) * pageSize

/-- `none` when the block does not continue this one. The addition wraps. -/
def tryConcatenate (b : KBlockInfo) (addr np : ℕ) : Option KBlockInfo :=
  if addr ≠ 0 ∧ addr = b.getEndAddress then
    some { b with numPages := (b.numPages + np % 2 ^ 32) % 2 ^ 32 }
  else none

end KBlockInfo

structure KPageGroup where
  blocks : List KBlockInfo
  served : ℕ → Bool
  requests : ℕ

namespace KPageGroup

def finalize (g : KPageGroup) : KPageGroup := { g with blocks := [] }

/-- A new block info at the end, if the manager still serves one. -/
def pushBlock (g : KPageGroup) (addr numPages : ℕ) : Option KPageGroup :=
  if g.served g.requests then
    some { g with
      blocks := g.blocks ++ [KBlockInfo.ofBlock addr numPages]
      requests := g.requests + 1 }
  else none

/-- `none` is the error, when no block info is left. -/
def addBlock (g : KPageGroup) (addr numPages : ℕ) : Option KPageGroup :=
  if numPages = 0 then some g
  else
    match g.blocks.getLast? with
    | some last =>
      match last.tryConcatenate addr numPages with
      | some last => some { g with blocks := g.blocks.dropLast ++ [last] }
      | none => g.pushBlock addr numPages
    | none => g.pushBlock addr numPages

end KPageGroup
end Ruzu.PageGroup
