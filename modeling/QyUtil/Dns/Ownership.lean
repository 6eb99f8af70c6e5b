import QyUtil.Dns.Allocation
import QyUtil.Dns.Records
import QyUtil.Runs.Ledger

/-! # The blocks of a response

Which heap blocks are held at each moment. A scan holds its buffer and no other block,
a record that has been read holds its name and its data, and `FreeAll` gives them all
back, whichever of the calls fail.
-/

namespace QyUtil.Dns

open Loops Outcome Turn Relation Runs

def heapBlocks : Ledger HeapEvent ℕ where
  takes
    | .malloc b => {b}
    | .realloc _ new => {new}
    | _ => 0
  gives
    | .realloc old _ => {old}
    | .free b => {b}
    | _ => 0

def held (b : Option Block) : Multiset ℕ := b.elim 0 fun b => {b.id}

def ResRecord.held (r : ResRecord) : Multiset ℕ := Dns.held r.name + Dns.held r.rdata

variable {heap : Heap} {buf : RecvBuf} {q s k n block cap p : ℕ} {left : Multiset ℕ}
  {t t' : Scan} {log : List HeapEvent}

theorem leaves_store (index : ℤ) (left : Multiset ℕ) :
    heapBlocks.Leaves left [.store block index cap] left := Ledger.leaves_neutral rfl rfl left

theorem leaves_free (b : ℕ) : heapBlocks.Leaves {b} [.free b] 0 :=
  Ledger.leaves_give (L := heapBlocks) (e := .free b) rfl 0

theorem leaves_realloc (old new : ℕ) : heapBlocks.Leaves {old} [.realloc old new] {new} := by
  have h := heapBlocks.leaves_event (.realloc old new) 0
  rwa [add_zero, add_zero] at h

def Scan.Holds (t : Scan) : Prop := heapBlocks.Leaves 0 t.trace {t.block}

theorem Scan.Holds.jump (h : t.Holds) (q : ℕ) : (t.jump q).Holds := h

theorem Advance.holds (h : Advance buf t t') (ht : t.Holds) : t'.countUp.Holds := by
  have ht' : t'.Holds := by
    cases h with
    | take => exact ht.append (leaves_store _ _)
    | jump => exact ht.jump _
  unfold Scan.countUp
  split_ifs
  · exact ht'
  · exact ht'

theorem Scan.Holds.next (h : t.Holds) (hn : Next (readTurn heap buf) t t') : t'.Holds := by
  obtain ⟨u, hu, rfl | rfl⟩ := readTurn_next hn
  · exact hu.holds h
  · exact (hu.holds h).append (leaves_realloc _ _)

theorem Scan.Holds.exit (h : t.Holds) (he : readTurn heap buf t = done (exit (t', false))) :
    heapBlocks.Balanced t'.trace := by
  rcases readTurn_done he with ⟨-, -, he⟩ | ⟨u, hu, he⟩
  · cases he
  · rcases grow_cases heap u.countUp with ⟨-, hg⟩ | ⟨-, -, hg⟩ | ⟨-, -, hg⟩ <;> rw [hg] at he
    · cases he
    · cases he
    · obtain ⟨rfl, -⟩ := Prod.mk.inj (exit.inj he)
      exact (hu.holds h).append (leaves_free _)

end QyUtil.Dns
