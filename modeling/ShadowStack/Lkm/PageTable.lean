import ShadowStack.Lib.Walk

/-!
# Page tables of an `mm_struct`

The five-level tree the module walks by hand, and the constants of `lkm/include/api.h` that place
the shadow areas in it.  A table is the page it sits in together with its slots; slots are indexed
by natural numbers because the code moves bare pointers along them, and nothing stops a pointer at
the last slot.  Four-level paging folds the p4d level: `pgd_none` is never true there and
`p4d_offset` returns the pgd slot itself, so a pgd slot then stands for a p4d table of one slot.
-/

namespace ShadowStack.Lkm

open Lib

/-! ## Constants -/

/-- `SS_START`. -/
def ssStart : Nat := 0xffffeb0000000000

/-- `SS_END`. -/
def ssEnd : Nat := 0xfffffc0000000000

/-- `SS_SIZE`. -/
def ssSize : Nat := 8 * 1024 * 1024

/-- `THREADS_LIMIT`. -/
def threadsLimit : Nat := (ssEnd - ssStart) / ssSize

/-- `PAGE_SHIFT`. -/
def pageShift : Nat := 12

/-- `PAGE_SIZE`. -/
def pageSize : Nat := 2 ^ pageShift

/-- `addr_to_id`: a 64-bit difference and quotient, cut to 32 bits. -/
def addrToId (addr : Nat) : Nat := wrapSub addr ssStart / ssSize % 2 ^ 32

/-- `id_to_addr`. -/
def idToAddr (id : Nat) : Nat := wrap (ssStart + id * ssSize)

theorem threadsLimit_eq : threadsLimit = 2228224 := by decide

/-- Ids up to and including the limit do not wrap. -/
theorem idToAddr_eq {id : Nat} (h : id ≤ threadsLimit) : idToAddr id = ssStart + id * ssSize := by
  rw [threadsLimit_eq] at h
  unfold idToAddr ssStart ssSize
  exact wrap_of_lt (by omega)

/-- An address of area `id` has that id. -/
theorem addrToId_eq {id a : Nat} (h : id ≤ threadsLimit) (hlo : ssStart + id * ssSize ≤ a)
    (hhi : a < ssStart + id * ssSize + ssSize) : addrToId a = id := by
  rw [threadsLimit_eq] at h
  simp only [ssStart, ssSize] at hlo hhi
  simp only [addrToId, wrapSub, ssStart, ssSize]
  omega

/-- The areas cover the window: every address of it lies in the area of its id. -/
theorem addrToId_spec {a : Nat} (hlo : ssStart ≤ a) (hhi : a < ssEnd) :
    addrToId a < threadsLimit ∧ ssStart + addrToId a * ssSize ≤ a ∧
      a < ssStart + addrToId a * ssSize + ssSize := by
  rw [threadsLimit_eq]
  simp only [ssStart, ssEnd] at hlo hhi
  simp only [addrToId, wrapSub, ssStart, ssSize]
  omega

/-! ## Tables -/

/-- A page handed out by the page allocator (`struct page`). -/
abbrev Page := Nat

/-- A page used as a page table (`pgtable_t`, `ptdesc`); the kernel's own, never a shadow page. -/
abbrev PtPage := Nat

/-- A last-level entry. -/
inductive Pte where
  /-- `pte_none`. -/
  | none
  /-- Neither none nor present. -/
  | absent
  /-- Present, mapping a page. -/
  | present (p : Page)
  /-- Present, but built from a word outside the page array it was taken from. -/
  | wild
deriving DecidableEq, Repr

/-- An entry of an upper level. -/
inductive Entry (α : Type) where
  /-- `pXd_none`. -/
  | none
  /-- `pXd_bad`: not none, but without the flags of a table; `t` is what the memory it points to
  reads as. -/
  | bad (t : α)
  /-- A linked table. -/
  | table (t : α)

/-- A table: its page and its slots. -/
structure Table (ε : Type) where
  page : PtPage
  slot : Nat → ε

abbrev PteTable := Table Pte
abbrev PmdTable := Table (Entry PteTable)
abbrev PudTable := Table (Entry PmdTable)
abbrev P4dTable := Table (Entry PudTable)

/-- The levels of entries. -/
inductive Level where
  | pte | pmd | pud | p4d | pgd
deriving DecidableEq, Repr

namespace Entry

variable {α : Type}

/-- The table an entry points to, if it points anywhere. -/
def child : Entry α → Option α
  | .none => Option.none
  | .bad t | .table t => some t

/-- `pXd_none`. -/
def isNone : Entry α → Bool
  | .none => true
  | _ => false

/-- Neither none nor bad. -/
def isTable : Entry α → Bool
  | .table _ => true
  | _ => false

/-- The same entry with the content of its table replaced; an empty entry is linked. -/
def setChild : Entry α → α → Entry α
  | .bad _, t => .bad t
  | _, t => .table t

@[simp] theorem child_setChild (e : Entry α) (t : α) : (e.setChild t).child = some t := by
  cases e <;> rfl

end Entry

/-- The page-table side of an `mm_struct`: the slots from `mm->pgd` on (the pgd table has 512; the
rest is the memory behind it) and the counts of tables. -/
structure Mm where
  pgd : Nat → Entry P4dTable
  nrPtes : Int
  nrPmds : Int
  nrPuds : Int

/-- An address space with no page table at all. -/
def Mm.empty : Mm := ⟨fun _ ↦ .none, 0, 0, 0⟩

/-! ## Slot numbers -/

/-- `PTRS_PER_PTE`, `PTRS_PER_PMD`, `PTRS_PER_PUD` and `PTRS_PER_PGD`. -/
def ptrs : Nat := 512

/-- `PTRS_PER_P4D`: one when the level is folded. -/
def ptrsPerP4d (l5 : Bool) : Nat := if l5 then 512 else 1

/-- `PGDIR_SHIFT`. -/
def pgdirShift (l5 : Bool) : Nat := if l5 then 48 else 39

def pteIndex (a : Nat) : Nat := a / 2 ^ 12 % ptrs
def pmdIndex (a : Nat) : Nat := a / 2 ^ 21 % ptrs
def pudIndex (a : Nat) : Nat := a / 2 ^ 30 % ptrs
def p4dIndex (l5 : Bool) (a : Nat) : Nat := a / 2 ^ 39 % ptrsPerP4d l5
def pgdIndex (l5 : Bool) (a : Nat) : Nat := a / 2 ^ pgdirShift l5 % ptrs

theorem two_pow_pgdirShift (l5 : Bool) : 2 ^ pgdirShift l5 = ptrsPerP4d l5 * 2 ^ 39 := by
  cases l5 <;> rfl

theorem pgdirShift_lt (l5 : Bool) : pgdirShift l5 < 64 := by cases l5 <;> decide

/-- `p4d_offset(pgd, 0)`: the p4d table, with four levels the pgd slot itself. -/
def p4dStart (pgd : Entry P4dTable) : P4dTable := pgd.child.getD ⟨0, fun _ ↦ .none⟩

/-! ## Reading a PTE -/

/-- Reading below an upper-level entry: nothing if no table is linked. -/
def Entry.look {ε : Type} (idx : Nat → Nat) (look : ε → Nat → Pte) (e : Entry (Table ε))
    (a : Nat) : Pte :=
  match e.child with
  | Option.none => .none
  | some t => look (t.slot (idx a)) a

/-- The PTE of `a` below a pmd entry. -/
def pmdLook : Entry PteTable → Nat → Pte := Entry.look pteIndex fun pte _ ↦ pte

/-- The PTE of `a` below a pud entry. -/
def pudLook : Entry PmdTable → Nat → Pte := Entry.look pmdIndex pmdLook

/-- The PTE of `a` below a p4d entry. -/
def p4dLook : Entry PudTable → Nat → Pte := Entry.look pudIndex pudLook

/-- The PTE of `a` below a pgd slot. -/
def pgdLook (l5 : Bool) : Entry P4dTable → Nat → Pte := Entry.look (p4dIndex l5) p4dLook

/-- The PTE of `a` in an address space. -/
def Mm.pteAt (l5 : Bool) (mm : Mm) (a : Nat) : Pte := pgdLook l5 (mm.pgd (pgdIndex l5 a)) a

end ShadowStack.Lkm
