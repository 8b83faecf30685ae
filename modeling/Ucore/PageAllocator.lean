import Mathlib
import Ucore.Halt
import Ucore.ListEntry

/-! The first-fit page allocator of `default_pmm.c`. A `struct Page *` is its
index in the `pages` array, so address order is the order of the indices. -/

namespace Ucore.PageAllocator
open Lib

/-- The bits of `flags` that are in use: `PG_reserved` and `PG_property`. -/
structure PageFlags where
  reserved : Bool := false
  property : Bool := false
  deriving DecidableEq

structure Page where
  ref : Int
  flags : PageFlags
  property : Nat
  deriving DecidableEq

/-- A list entry is the header `free_area.free_list` or some `page_link`. -/
inductive Link where
  | freeList
  | pageLink (page : Nat)
  deriving DecidableEq

/-- The `pages` array with its `page_link` entries, and `free_area`. -/
structure FreeArea where
  npage : Nat
  page : Nat → Page
  link : Links Link
  nrFree : Nat

/-- The value an `unsigned int` keeps of `value`. -/
def uint (value : Nat) : Nat := value % 2 ^ 32

namespace FreeArea

def setPage (area : FreeArea) (p : Nat) (page : Page) : FreeArea :=
  { area with page := Function.update area.page p page }

def setProperty (area : FreeArea) (p : Nat) (property : Nat) : FreeArea :=
  area.setPage p { area.page p with property := uint property }

/-- `SetPageProperty` and `ClearPageProperty` -/
def setPageProperty (area : FreeArea) (p : Nat) (value : Bool) : FreeArea :=
  area.setPage p { area.page p with flags := { (area.page p).flags with property := value } }

def onLinks (area : FreeArea) (edit : Links Link → Links Link) : FreeArea :=
  { area with link := edit area.link }

/-- The list is walked at most once around, with one more entry than there are pages. -/
def fuel (area : FreeArea) : Nat := area.npage + 2

end FreeArea

def defaultInit (area : FreeArea) : FreeArea :=
  { area.onLinks (listInit .freeList) with nrFree := 0 }

/-- The search for the insertion point. The loop is left by `break` after
`list_add_before`, and only by its condition after `list_add` at the tail. -/
def insertLoop (base : Nat) : Nat → Link → FreeArea → Kern FreeArea
  | 0, _, _ => .error .diverge
  | fuel + 1, le, area =>
    match area.link.next le with
    | .freeList => .ok area
    | .pageLink page =>
      if base < page then
        .ok (area.onLinks (listAddBefore (.pageLink page) (.pageLink base)))
      else if area.link.next (.pageLink page) = .freeList then
        insertLoop base fuel (.pageLink page) (area.onLinks (listAdd (.pageLink page) (.pageLink base)))
      else
        insertLoop base fuel (.pageLink page) area

def insertBlock (base : Nat) (area : FreeArea) : Kern FreeArea :=
  if listEmpty .freeList area.link then
    .ok (area.onLinks (listAdd .freeList (.pageLink base)))
  else
    insertLoop base area.fuel .freeList area

def initMemmapLoop : Nat → Nat → FreeArea → Kern FreeArea
  | _, 0, area => .ok area
  | p, n + 1, area => do
    assert (area.page p).flags.reserved "PageReserved(p)"
    initMemmapLoop (p + 1) n (area.setPage p { ref := 0, flags := {}, property := 0 })

def defaultInitMemmap (base n : Nat) (area : FreeArea) : Kern FreeArea := do
  assert (0 < n) "n > 0"
  let area ← initMemmapLoop base n area
  let area := (area.setProperty base n).setPageProperty base true
  insertBlock base { area with nrFree := uint (area.nrFree + n) }

/-- The scan for the first block of at least `n` pages. -/
def findFit (n : Nat) : Nat → Link → FreeArea → Kern (Option Nat)
  | 0, _, _ => .error .diverge
  | fuel + 1, le, area =>
    match area.link.next le with
    | .freeList => .ok none
    | .pageLink p =>
      if n ≤ (area.page p).property then .ok (some p) else findFit n fuel (.pageLink p) area

/-- What `default_alloc_pages` does once it has chosen the block at `page`. -/
def takePages (page n : Nat) (area : FreeArea) : FreeArea :=
  let prev := area.link.prev (.pageLink page)
  let area := area.onLinks (listDel (.pageLink page))
  let area :=
    if n < (area.page page).property then
      ((area.setProperty (page + n) ((area.page page).property - n)).setPageProperty (page + n) true).onLinks
        (listAdd prev (.pageLink (page + n)))
    else area
  { area with nrFree := area.nrFree - n }.setPageProperty page false

def defaultAllocPages (n : Nat) (area : FreeArea) : Kern (Option Nat × FreeArea) := do
  assert (0 < n) "n > 0"
  if area.nrFree < n then
    return (none, area)
  match ← findFit n area.fuel .freeList area with
  | none => return (none, area)
  | some page => return (some page, takePages page n area)

def freePagesLoop : Nat → Nat → FreeArea → Kern FreeArea
  | _, 0, area => .ok area
  | p, n + 1, area => do
    assert (!(area.page p).flags.reserved && !(area.page p).flags.property)
      "!PageReserved(p) && !PageProperty(p)"
    freePagesLoop (p + 1) n (area.setPage p { ref := 0, flags := {}, property := (area.page p).property })

/-- `low->property += high->property; ClearPageProperty(high); list_del(&(high->page_link))` -/
def absorb (low high : Nat) (area : FreeArea) : FreeArea :=
  ((area.setProperty low ((area.page low).property + (area.page high).property)).setPageProperty
    high false).onLinks (listDel (.pageLink high))

/-- Merge the block at `base` into the block before it; the result is the new `base`. -/
def mergePrev (base : Nat) (area : FreeArea) : Nat × FreeArea :=
  match area.link.prev (.pageLink base) with
  | .freeList => (base, area)
  | .pageLink p =>
    if p + (area.page p).property = base then (p, absorb p base area) else (base, area)

/-- Merge the block after `base` into it. -/
def mergeNext (base : Nat) (area : FreeArea) : FreeArea :=
  match area.link.next (.pageLink base) with
  | .freeList => area
  | .pageLink p => if base + (area.page base).property = p then absorb base p area else area

def defaultFreePages (base n : Nat) (area : FreeArea) : Kern FreeArea := do
  assert (0 < n) "n > 0"
  let area ← freePagesLoop base n area
  let area := (area.setProperty base n).setPageProperty base true
  let area ← insertBlock base { area with nrFree := uint (area.nrFree + n) }
  let (base, area) := mergePrev base area
  return mergeNext base area

def defaultNrFreePages (area : FreeArea) : Nat := area.nrFree

end Ucore.PageAllocator
