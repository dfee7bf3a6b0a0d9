import OsProj.Palloc

/-! Page directories of proj-pregame: words in pages of the kernel pool, with the flags in the low
bits of an entry. Making the processor forget a translation changes no word and is left out. -/
namespace OsProj.PageDir

open OsProj.ByteMemory OsProj.Palloc

/-- The kernel's page directory, made at boot, and the number of pages of memory. -/
structure Kernel where
  initPageDir : Nat
  ramPages : Nat
  /-- The loader caps memory at 64 megabytes. -/
  capped : ramPages ≤ 16384

def pteAddr : Nat := 0xfffff000
def pteP : Nat := 1
def pteW : Nat := 2
def pteU : Nat := 4

def ptMask : Nat := 0x3ff000

def ptNo (va : Nat) : Nat := (va &&& ptMask) >>> 12

def pdNo (va : Nat) : Nat := va >>> 22

def isUserVaddr (va : Nat) : Bool := va < physBase

def vtop (vaddr : Nat) : Except Panic Nat := do
  assert (physBase ≤ vaddr)
  return vaddr - physBase

def pdeCreate (pt : Nat) : Except Panic Nat := do
  assert (pgOfs pt = 0)
  return (← vtop pt) ||| pteU ||| pteP ||| pteW

def pdeGetPt (pde : Nat) : Except Panic Nat := do
  assert (pde &&& pteP ≠ 0)
  ptov (pde &&& pteAddr)

def pteCreateKernel (page : Nat) (writable : Bool) : Except Panic Nat := do
  assert (pgOfs page = 0)
  return (← vtop page) ||| pteP ||| (if writable then pteW else 0)

def pteCreateUser (page : Nat) (writable : Bool) : Except Panic Nat := do
  return (← pteCreateKernel page writable) ||| pteU

def pteGetPage (pte : Nat) : Except Panic Nat := ptov (pte &&& pteAddr)

def readWord (a : Nat) : M Nat := fun s => .ok (load s.memory a 4,s)

def writeWord (a value : Nat) : M Unit := modify fun s => { s with memory := store s.memory a 4 value }

section
variable (kernel : Kernel)

def pagedirCreate : M Nat := do
  let pd ← pallocGetPage ⟨false,false,false⟩
  if pd ≠ 0 then
    modify fun s => { s with memory := copy s.memory pd kernel.initPageDir pgSize }
    return pd
  else return pd

/-- The inner loop of `pagedir_destroy`, with the entries that are left. -/
def destroyTable (pt : Nat) : Nat → Nat → M Unit
  | 0, _ => return ()
  | n + 1, j => do
    let pte ← readWord (pt + 4 * j)
    if pte &&& pteP ≠ 0 then
      pallocFreePage (← pteGetPage pte)
      destroyTable pt n (j + 1)
    else destroyTable pt n (j + 1)

/-- The outer loop, over the entries for user addresses. -/
def destroyTables (pd : Nat) : Nat → Nat → M Unit
  | 0, _ => return ()
  | n + 1, i => do
    let pde ← readWord (pd + 4 * i)
    if pde &&& pteP ≠ 0 then
      let pt ← pdeGetPt pde
      destroyTable pt (pgSize / 4) 0
      pallocFreePage pt
      destroyTables pd n (i + 1)
    else destroyTables pd n (i + 1)

def pagedirDestroy (pd : Nat) : M Unit := do
  if pd = 0 then return ()
  else
    assert (pd ≠ kernel.initPageDir)
    destroyTables pd (pdNo physBase) 0
    pallocFreePage pd

def lookupPage (pd vaddr : Nat) (create : Bool) : M Nat := do
  assert (pd ≠ 0)
  assert (!create || isUserVaddr vaddr)
  let pde := pd + 4 * pdNo vaddr
  if (← readWord pde) = 0 then
    if create then
      let pt ← pallocGetPage ⟨false,true,false⟩
      if pt = 0 then return 0
      else
        writeWord pde (← pdeCreate pt)
        let pt ← pdeGetPt (← readWord pde)
        return pt + 4 * ptNo vaddr
    else return 0
  else
    let pt ← pdeGetPt (← readWord pde)
    return pt + 4 * ptNo vaddr

def pagedirSetPage (pd upage kpage : Nat) (writable : Bool) : M Bool := do
  assert (pgOfs upage = 0)
  assert (pgOfs kpage = 0)
  assert (isUserVaddr upage)
  let frame ← vtop kpage
  assert (frame >>> 12 < kernel.ramPages)
  assert (pd ≠ kernel.initPageDir)
  let pte ← lookupPage pd upage true
  if pte ≠ 0 then
    let old ← readWord pte
    assert (old &&& pteP = 0)
    writeWord pte (← pteCreateUser kpage writable)
    return true
  else return false

def pagedirGetPage (pd uaddr : Nat) : M Nat := do
  assert (isUserVaddr uaddr)
  let pte ← lookupPage pd uaddr false
  if pte ≠ 0 then
    let entry ← readWord pte
    if entry &&& pteP ≠ 0 then
      let page ← pteGetPage entry
      return page + pgOfs uaddr
    else return 0
  else return 0

def pagedirClearPage (pd upage : Nat) : M Unit := do
  assert (pgOfs upage = 0)
  assert (isUserVaddr upage)
  let pte ← lookupPage pd upage false
  if pte ≠ 0 then
    let entry ← readWord pte
    if entry &&& pteP ≠ 0 then writeWord pte (entry &&& (4294967295 - pteP))
    else return ()
  else return ()

end

end OsProj.PageDir
