import Mathlib.Data.List.Induction
import Mathlib.Data.List.Sort

namespace Msos.Library.Insertion

section Order

variable {α κ : Type*} (r : κ → κ → Prop) (key : α → κ) (rank : α → Nat)

-- By the keys, and equal keys by the ranks.
def Before (first second : α) : Prop :=
  r (key first) (key second) ∨ key first = key second ∧ rank first < rank second

variable [DecidableRel r]

-- Behind every element whose key is not larger.
def insert (a : α) (list : List α) : List α :=
  list.orderedInsert (fun first second => r (key first) (key second)) a

def insertAll (list : List α) : List α := list.foldl (fun sorted a => insert r key a sorted) []

variable {r} {key} {rank}

theorem perm_insert (a : α) (list : List α) : (insert r key a list).Perm (a :: list) :=
  List.perm_orderedInsert _ a list

-- What has the largest rank comes behind its equals.
theorem pairwise_insert [IsTrans κ r] [Std.Trichotomous r] {a : α} {list : List α}
    (hs : list.Pairwise (Before r key rank)) (hlast : ∀ b ∈ list, rank b < rank a) :
    (insert r key a list).Pairwise (Before r key rank) := by
  induction list with
  | nil => exact List.pairwise_singleton _ a
  | cons head rest ih =>
      obtain ⟨hhead, hrest⟩ := List.pairwise_cons.mp hs
      by_cases hlt : r (key a) (key head)
      · have hinsert : insert r key a (head :: rest) = a :: head :: rest :=
          List.orderedInsert_cons_of_le _ rest hlt
        rw [hinsert]
        refine List.pairwise_cons.mpr ⟨fun b hb => Or.inl ?_, hs⟩
        rcases List.mem_cons.mp hb with rfl | hb
        · exact hlt
        · rcases hhead b hb with hkey | ⟨hkey, -⟩
          · exact IsTrans.trans _ _ _ hlt hkey
          · exact hkey ▸ hlt
      · have hinsert : insert r key a (head :: rest) = head :: insert r key a rest :=
          List.orderedInsert_of_not_le _ rest hlt
        rw [hinsert]
        refine List.pairwise_cons.mpr ⟨fun b hb => ?_,
          ih hrest (fun b hb => hlast b (List.mem_cons_of_mem _ hb))⟩
        rcases List.mem_cons.mp ((perm_insert a rest).mem_iff.mp hb) with rfl | hb
        · by_cases hkey : r (key head) (key b)
          · exact Or.inl hkey
          · exact Or.inr ⟨(Std.Trichotomous.trichotomous _ _ hlt hkey).symm,
              hlast head List.mem_cons_self⟩
        · exact hhead b hb

-- Inserted in the order of their ranks, the elements end up sorted and stable.
theorem insertAll_spec [IsTrans κ r] [Std.Trichotomous r] {list : List α}
    (hranks : list.Pairwise fun first second => rank first < rank second) :
    (insertAll r key list).Perm list ∧
      (insertAll r key list).Pairwise (Before r key rank) := by
  induction list using List.reverseRecOn with
  | nil => exact ⟨List.Perm.refl _, List.Pairwise.nil⟩
  | append_singleton list a ih =>
      obtain ⟨hlist, -, hlast⟩ := List.pairwise_append.mp hranks
      obtain ⟨hperm, hsorted⟩ := ih hlist
      have hinsert : insertAll r key (list ++ [a]) = insert r key a (insertAll r key list) := by
        simp [insertAll, List.foldl_append]
      rw [hinsert]
      refine ⟨?_, pairwise_insert hsorted fun b hb => ?_⟩
      · exact ((perm_insert a _).trans (hperm.cons a)).trans (List.perm_append_singleton a list).symm
      · exact hlast b (hperm.mem_iff.mp hb) a (List.mem_singleton_self a)

end Order

end Msos.Library.Insertion
