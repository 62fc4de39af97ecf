import Mathlib.Algebra.BigOperators.Group.List.Lemmas
import Mathlib.Tactic.Abel
import Semidefinite.Proofs.Order

/-!
# What tallies add up to

`Tally.sum f t` adds `f k v` over the entries of `t`. Contributions that are
added to a tally are added to its sum, in any order, so a sum through a tally
is the sum of what was put into it (`sum_ofList`). The keys of a tally that is
built by additions ascend, so a sum whose terms vanish at all keys but one is
the term of that key's total (`sum_eq_total`).
-/

namespace Semidefinite.Tally

open Std

variable {κ α : Type}

/-! ## Ascending keys -/

/-- The keys ascend, and so are distinct. -/
def Ascending [Ord κ] (t : Tally κ α) : Prop :=
  t.entries.Pairwise fun p q => compare p.1 q.1 = .lt

section Ascending
variable [Ord κ]

theorem ascending_empty : (empty : Tally κ α).Ascending := List.Pairwise.nil

theorem Ascending.dropZeros [Zero α] [BEq α] {t : Tally κ α} (h : t.Ascending) :
    t.dropZeros.Ascending := h.filter _

theorem key_ne_of_lt [LawfulEqOrd κ] {k l : κ} (h : compare k l = .lt) : k ≠ l := by
  rintro rfl
  rw [ReflOrd.compare_self] at h
  cases h

theorem Ascending.nodup_keys [LawfulEqOrd κ] {t : Tally κ α} (h : t.Ascending) : t.keys.Nodup :=
  List.pairwise_map.2 (h.imp fun hlt => key_ne_of_lt hlt)

section Keys
variable [LawfulEqOrd κ] [Zero α] [Add α]

theorem mem_keys_addEntry {k k' : κ} {v : α} {entries : List (κ × α)} :
    k' ∈ (addEntry k v entries).map Prod.fst ↔ k' = k ∨ k' ∈ entries.map Prod.fst := by
  induction entries with
  | nil => simp [addEntry]
  | cons p rest ih =>
    obtain ⟨l, total⟩ := p
    simp only [addEntry]
    split
    · simp
    · rename_i hk
      obtain rfl : k = l := LawfulEqOrd.eq_of_compare hk
      simp
    · simp only [List.map_cons, List.mem_cons, ih]
      tauto

theorem mem_keys_addAll {k : κ} {t : Tally κ α} {contributions : List (κ × α)} :
    k ∈ (t.addAll contributions).keys ↔ k ∈ t.keys ∨ k ∈ contributions.map Prod.fst := by
  induction contributions generalizing t with
  | nil => simp [Tally.addAll]
  | cons p rest ih =>
    rw [show t.addAll (p :: rest) = (t.add p.1 p.2).addAll rest from rfl, ih, List.map_cons,
      List.mem_cons, keys, Tally.add, mem_keys_addEntry]
    tauto

theorem mem_keys_ofList {k : κ} {contributions : List (κ × α)} :
    k ∈ (ofList contributions).keys ↔ k ∈ contributions.map Prod.fst := by
  unfold ofList
  rw [mem_keys_addAll]
  simp [keys, empty]

theorem mem_addEntry_of_not_mem {k : κ} {v : α} {entries : List (κ × α)}
    (hk : k ∉ entries.map Prod.fst) {p : κ × α} :
    p ∈ addEntry k v entries ↔ p = (k, 0 + v) ∨ p ∈ entries := by
  induction entries with
  | nil => simp [addEntry]
  | cons q rest ih =>
    obtain ⟨l, total⟩ := q
    rw [List.map_cons, List.mem_cons, not_or] at hk
    simp only [addEntry]
    split
    · exact List.mem_cons
    · rename_i hl
      exact absurd (LawfulEqOrd.eq_of_compare hl) hk.1
    · rw [List.mem_cons, ih hk.2, List.mem_cons]
      tauto

theorem mem_addAll_of_nodup {t : Tally κ α} {contributions : List (κ × α)}
    (hnodup : (contributions.map Prod.fst).Nodup)
    (hnew : ∀ k ∈ contributions.map Prod.fst, k ∉ t.keys) {p : κ × α} :
    p ∈ (t.addAll contributions).entries ↔
      p ∈ t.entries ∨ ∃ q ∈ contributions, p = (q.1, 0 + q.2) := by
  induction contributions generalizing t with
  | nil => simp [Tally.addAll]
  | cons q rest ih =>
    rw [List.map_cons, List.nodup_cons] at hnodup
    obtain ⟨hfirst, hrest⟩ := List.forall_mem_cons.1 hnew
    have hnew' : ∀ k ∈ rest.map Prod.fst, k ∉ (t.add q.1 q.2).keys := by
      intro k hk hmem
      rcases mem_keys_addEntry.1 hmem with rfl | hmem
      · exact hnodup.1 hk
      · exact hrest k hk hmem
    rw [show t.addAll (q :: rest) = (t.add q.1 q.2).addAll rest from rfl, ih hnodup.2 hnew',
      Tally.add, mem_addEntry_of_not_mem hfirst, List.exists_mem_cons_iff]
    tauto

theorem mem_ofList_of_nodup {contributions : List (κ × α)}
    (hnodup : (contributions.map Prod.fst).Nodup) {p : κ × α} :
    p ∈ (ofList contributions).entries ↔ ∃ q ∈ contributions, p = (q.1, 0 + q.2) := by
  unfold ofList
  rw [mem_addAll_of_nodup hnodup fun k _ => List.not_mem_nil]
  simp [empty]

end Keys

section Totals
variable [Zero α] [Add α] {P : α → Prop}

theorem forall_totals_addEntry {k : κ} {v : α} {entries : List (κ × α)}
    (h : ∀ p ∈ entries, P p.2) (hstart : P (0 + v)) (hadd : ∀ u, P u → P (u + v)) :
    ∀ p ∈ addEntry k v entries, P p.2 := by
  induction entries with
  | nil => simpa [addEntry] using hstart
  | cons q rest ih =>
    obtain ⟨l, total⟩ := q
    obtain ⟨hq, hrest⟩ := List.forall_mem_cons.1 h
    simp only [addEntry]
    split
    · exact List.forall_mem_cons.2 ⟨hstart, h⟩
    · exact List.forall_mem_cons.2 ⟨hadd total hq, hrest⟩
    · exact List.forall_mem_cons.2 ⟨hq, ih hrest⟩

/-- What holds of the totals holds of them after additions that keep it. -/
theorem forall_totals_addAll {t : Tally κ α} {contributions : List (κ × α)}
    (h : ∀ p ∈ t.entries, P p.2) (hstart : ∀ p ∈ contributions, P (0 + p.2))
    (hadd : ∀ p ∈ contributions, ∀ u, P u → P (u + p.2)) :
    ∀ p ∈ (t.addAll contributions).entries, P p.2 := by
  induction contributions generalizing t with
  | nil => exact h
  | cons q rest ih =>
    obtain ⟨hstart, hrest⟩ := List.forall_mem_cons.1 hstart
    obtain ⟨hadd, haddRest⟩ := List.forall_mem_cons.1 hadd
    exact ih (forall_totals_addEntry h hstart hadd) hrest haddRest

end Totals

variable [TransOrd κ] [LawfulEqOrd κ] [Zero α] [Add α]

theorem ascending_addEntry {k : κ} {v : α} {entries : List (κ × α)}
    (h : entries.Pairwise fun p q => compare p.1 q.1 = .lt) :
    (addEntry k v entries).Pairwise fun p q => compare p.1 q.1 = .lt := by
  induction entries with
  | nil => simp [addEntry]
  | cons p rest ih =>
    obtain ⟨l, total⟩ := p
    obtain ⟨hl, hrest⟩ := List.pairwise_cons.1 h
    simp only [addEntry]
    split
    · rename_i hk
      refine List.pairwise_cons.2 ⟨fun q hq => ?_, h⟩
      rcases List.mem_cons.1 hq with rfl | hq
      · exact hk
      · exact TransCmp.lt_trans hk (hl q hq)
    · exact List.pairwise_cons.2 ⟨hl, hrest⟩
    · rename_i hk
      refine List.pairwise_cons.2 ⟨fun q hq => ?_, ih hrest⟩
      have hq : q.1 ∈ (addEntry k v rest).map Prod.fst := List.mem_map_of_mem hq
      rcases mem_keys_addEntry.1 hq with hqk | hq
      · rw [hqk]
        exact OrientedCmp.lt_of_gt hk
      · obtain ⟨r, hr, hrq⟩ := List.mem_map.1 hq
        rw [← hrq]
        exact hl r hr

theorem Ascending.add {t : Tally κ α} (h : t.Ascending) (k : κ) (v : α) :
    (t.add k v).Ascending := ascending_addEntry h

theorem Ascending.addAll {t : Tally κ α} (h : t.Ascending) (contributions : List (κ × α)) :
    (t.addAll contributions).Ascending := by
  induction contributions generalizing t with
  | nil => exact h
  | cons p rest ih => exact ih (h.add p.1 p.2)

theorem ascending_ofList (contributions : List (κ × α)) :
    (ofList contributions).Ascending := ascending_empty.addAll contributions

end Ascending

theorem mem_dropZeros [Zero α] [BEq α] [LawfulBEq α] {t : Tally κ α} {p : κ × α} :
    p ∈ t.dropZeros.entries ↔ p ∈ t.entries ∧ p.2 ≠ 0 := by
  simp [dropZeros]

/-! ## Sums over the entries -/

section Sum
variable {M : Type*} [AddCommMonoid M] {f : κ → α → M}

/-- The sum of `f k v` over the entries `(k, v)`. -/
def sum (f : κ → α → M) (t : Tally κ α) : M :=
  (t.entries.map fun (k, v) => f k v).sum

@[simp] theorem sum_empty : sum f empty = 0 := rfl

theorem sum_congr {g : κ → α → M} {t : Tally κ α}
    (h : ∀ p ∈ t.entries, f p.1 p.2 = g p.1 p.2) : sum f t = sum g t :=
  congrArg List.sum (List.map_congr_left h)

theorem sum_dropZeros [Zero α] [BEq α] [LawfulBEq α] (hf : ∀ k, f k 0 = 0) (t : Tally κ α) :
    sum f t.dropZeros = sum f t := by
  obtain ⟨entries⟩ := t
  simp only [sum, dropZeros]
  induction entries with
  | nil => rfl
  | cons p rest ih =>
    obtain ⟨k, v⟩ := p
    by_cases hv : v = 0
    · simp [hv, hf, ih]
    · simp [hv, ih]

variable [Zero α] [Add α] [Ord κ] [LawfulEqOrd κ]

/-- `f k` turns the totals of a key into sums. -/
structure Additive (f : κ → α → M) : Prop where
  start : ∀ k v, f k (0 + v) = f k v
  add : ∀ k u v, f k (u + v) = f k u + f k v

theorem sum_add (hf : Additive f) (t : Tally κ α) (k : κ) (v : α) :
    sum f (t.add k v) = sum f t + f k v := by
  obtain ⟨entries⟩ := t
  simp only [sum, Tally.add]
  induction entries with
  | nil => simp [addEntry, hf.start]
  | cons p rest ih =>
    obtain ⟨l, total⟩ := p
    simp only [addEntry]
    split
    · simp only [List.map_cons, List.sum_cons, hf.start]
      abel
    · rename_i hk
      obtain rfl : k = l := LawfulEqOrd.eq_of_compare hk
      simp only [List.map_cons, List.sum_cons, hf.add]
      abel
    · simp only [List.map_cons, List.sum_cons, ih]
      abel

theorem sum_addAll (hf : Additive f) (t : Tally κ α) (contributions : List (κ × α)) :
    sum f (t.addAll contributions) =
      sum f t + (contributions.map fun (k, v) => f k v).sum := by
  induction contributions generalizing t with
  | nil => simp [Tally.addAll]
  | cons p rest ih =>
    rw [show t.addAll (p :: rest) = (t.add p.1 p.2).addAll rest from rfl, ih, sum_add hf,
      List.map_cons, List.sum_cons, add_assoc]

theorem sum_ofList (hf : Additive f) (contributions : List (κ × α)) :
    sum f (ofList contributions) = (contributions.map fun (k, v) => f k v).sum := by
  unfold ofList
  rw [sum_addAll hf, sum_empty, zero_add]

theorem sum_merge (hf : Additive f) (s t : Tally κ α) :
    sum f (s.merge t) = sum f s + sum f t := sum_addAll hf s t.entries

end Sum

/-! ## Totals -/

section Total
variable [BEq κ] [LawfulBEq κ] [Zero α]

theorem total_cons_self {k : κ} {v : α} {rest : List (κ × α)} :
    total ⟨(k, v) :: rest⟩ k = v := by
  simp [total]

theorem total_cons_ne {k l : κ} {v : α} {rest : List (κ × α)} (h : k ≠ l) :
    total ⟨(l, v) :: rest⟩ k = total ⟨rest⟩ k := by
  simp [total, List.lookup_cons, beq_false_of_ne h]

theorem total_of_not_mem {t : Tally κ α} {k : κ} (h : k ∉ t.keys) : t.total k = 0 := by
  have hnone : t.entries.lookup k = none := by
    refine List.lookup_eq_none_iff.2 fun p hp => ?_
    rw [bne_iff_ne]
    rintro rfl
    exact h (List.mem_map_of_mem hp)
  simp [total, hnone]

variable [Ord κ] [LawfulEqOrd κ]

theorem total_of_mem {t : Tally κ α} (ht : t.Ascending) {k : κ} {v : α}
    (h : (k, v) ∈ t.entries) : t.total k = v := by
  obtain ⟨entries⟩ := t
  unfold Ascending at ht
  induction entries with
  | nil => cases h
  | cons p rest ih =>
    obtain ⟨hp, hrest⟩ := List.pairwise_cons.1 ht
    rcases List.mem_cons.1 h with rfl | h
    · exact total_cons_self
    · rw [total_cons_ne (key_ne_of_lt (hp _ h)).symm]
      exact ih hrest h

theorem mem_entries_iff_total {t : Tally κ α} (ht : t.Ascending) {k : κ} {v : α} (hv : v ≠ 0) :
    (k, v) ∈ t.entries ↔ t.total k = v := by
  refine ⟨total_of_mem ht, fun h => ?_⟩
  have hk : k ∈ t.keys := by
    by_contra hk
    exact hv (h.symm.trans (total_of_not_mem hk))
  obtain ⟨p, hp, rfl⟩ := List.mem_map.1 hk
  rwa [← h, total_of_mem ht hp]

/-- A sum whose terms vanish at all keys but `k` is the term of the total of `k`. -/
theorem sum_eq_total {M : Type*} [AddCommMonoid M] {f : κ → α → M} {t : Tally κ α}
    (ht : t.Ascending) (k : κ) (hzero : f k 0 = 0)
    (hne : ∀ p ∈ t.entries, p.1 ≠ k → f p.1 p.2 = 0) : sum f t = f k (t.total k) := by
  obtain ⟨entries⟩ := t
  unfold Ascending at ht
  induction entries with
  | nil => simp [sum, total, hzero]
  | cons p rest ih =>
    obtain ⟨l, v⟩ := p
    obtain ⟨hl, hrest⟩ := List.pairwise_cons.1 ht
    have hsum : sum f ⟨(l, v) :: rest⟩ = f l v + sum f ⟨rest⟩ := by simp [sum]
    rw [hsum]
    by_cases hk : l = k
    · -- the other keys differ from `l`, so nothing else is left
      subst hk
      have hrest0 : sum f ⟨rest⟩ = 0 := by
        refine List.sum_eq_zero fun m hm => ?_
        obtain ⟨q, hq, rfl⟩ := List.mem_map.1 hm
        exact hne q (List.mem_cons_of_mem _ hq) (key_ne_of_lt (hl q hq)).symm
      rw [hrest0, add_zero, total_cons_self]
    · rw [hne _ List.mem_cons_self hk, zero_add, total_cons_ne (Ne.symm hk)]
      exact ih hrest fun q hq => hne q (List.mem_cons_of_mem _ hq)

end Total

theorem Ascending.ext [Ord κ] [TransOrd κ] [LawfulEqOrd κ] {s t : Tally κ α}
    (hs : s.Ascending) (ht : t.Ascending) (h : ∀ p, p ∈ s.entries ↔ p ∈ t.entries) : s = t := by
  obtain ⟨entries⟩ := s
  obtain ⟨entries'⟩ := t
  congr 1
  refine eq_of_ordered (fun hpq hqp => ?_) hs ht h
  rw [OrientedCmp.gt_of_lt hpq] at hqp
  cases hqp

/-- Tallies with ascending keys and the same totals differ at most in zeros. -/
theorem Ascending.dropZeros_eq [BEq κ] [LawfulBEq κ] [Ord κ] [TransOrd κ] [LawfulEqOrd κ] [Zero α]
    [BEq α] [LawfulBEq α] {s t : Tally κ α} (hs : s.Ascending) (ht : t.Ascending)
    (h : ∀ k, s.total k = t.total k) : s.dropZeros = t.dropZeros := by
  refine Ascending.ext hs.dropZeros ht.dropZeros fun p => ?_
  rw [mem_dropZeros, mem_dropZeros]
  refine and_congr_left fun hv => ?_
  rw [mem_entries_iff_total hs hv, mem_entries_iff_total ht hv, h]

/-! ## One entry more -/

/-- `t` has the entries of `s` and one more, of the new key `k`. -/
structure InsertedAt (k : κ) (v : α) (s t : Tally κ α) : Prop where
  new : k ∉ s.keys
  split : ∃ before after, s.entries = before ++ after ∧ t.entries = before ++ (k, v) :: after

section InsertedAt
variable {k : κ} {v : α} {s t : Tally κ α}

theorem InsertedAt.mem_keys (h : InsertedAt k v s t) {l : κ} :
    l ∈ t.keys ↔ l = k ∨ l ∈ s.keys := by
  obtain ⟨-, before, after, hs, ht⟩ := h
  simp only [keys, hs, ht, List.map_append, List.map_cons, List.mem_append, List.mem_cons]
  tauto

theorem InsertedAt.total_eq [BEq κ] [LawfulBEq κ] [Zero α] (h : InsertedAt k v s t) {l : κ}
    (hl : l ≠ k) : t.total l = s.total l := by
  obtain ⟨-, before, after, hs, ht⟩ := h
  simp only [total, hs, ht, List.lookup_append, List.lookup_cons, beq_false_of_ne hl]

theorem InsertedAt.dropZeros [Zero α] [BEq α] (h : InsertedAt k v s t) (hv : (v == 0) = false) :
    InsertedAt k v s.dropZeros t.dropZeros := by
  obtain ⟨hnew, before, after, hs, ht⟩ := h
  refine ⟨fun hk => hnew ((List.filter_sublist.map _).subset hk),
    before.filter (fun p => p.2 != 0), after.filter (fun p => p.2 != 0), ?_, ?_⟩
  · rw [Tally.dropZeros, hs, List.filter_append]
  · rw [Tally.dropZeros, ht, List.filter_append, List.filter_cons_of_pos (by simpa [bne] using hv)]

variable [Ord κ] [LawfulEqOrd κ] [Zero α] [Add α]

theorem insertedAt_add (v : α) (hk : k ∉ s.keys) : InsertedAt k (0 + v) s (s.add k v) := by
  obtain ⟨entries⟩ := s
  refine ⟨hk, ?_⟩
  simp only [Tally.add]
  induction entries with
  | nil => exact ⟨[], [], rfl, rfl⟩
  | cons p rest ih =>
    obtain ⟨l, total⟩ := p
    simp only [keys, List.map_cons, List.mem_cons, not_or] at hk
    simp only [addEntry]
    split
    · exact ⟨[], (l, total) :: rest, rfl, rfl⟩
    · rename_i hl
      exact absurd (LawfulEqOrd.eq_of_compare hl) hk.1
    · obtain ⟨before, after, hs, ht⟩ := ih hk.2
      exact ⟨(l, total) :: before, after, by rw [hs]; rfl, by rw [ht]; rfl⟩

variable [TransOrd κ]

/-- A contribution to another key lands at the same place with and without the entry. -/
theorem InsertedAt.add (h : InsertedAt k v s t) (ht : t.Ascending) {l : κ} (hl : l ≠ k) (u : α) :
    InsertedAt k v (s.add l u) (t.add l u) := by
  obtain ⟨hnew, before, after, hs, ht'⟩ := h
  refine ⟨fun hk => ?_, ?_⟩
  · rcases mem_keys_addEntry.1 hk with hk | hk
    · exact hl hk.symm
    · exact hnew hk
  unfold Ascending at ht
  simp only [Tally.add, hs, ht'] at ht ⊢
  clear hnew hs ht'
  induction before with
  | nil =>
    simp only [List.nil_append, addEntry] at ht ⊢
    split
    · rename_i hlk
      refine ⟨[(l, 0 + u)], after, ?_, rfl⟩
      -- every later key is greater still
      cases after with
      | nil => rfl
      | cons p rest =>
        have hlp : compare l p.1 = .lt :=
          TransCmp.lt_trans hlk ((List.pairwise_cons.1 ht).1 p List.mem_cons_self)
        simp only [addEntry, hlp]
        rfl
    · rename_i hlk
      exact absurd (LawfulEqOrd.eq_of_compare hlk) hl
    · exact ⟨[], addEntry l u after, rfl, rfl⟩
  | cons p before ih =>
    obtain ⟨l', total⟩ := p
    simp only [List.cons_append, addEntry] at ht ⊢
    split
    · exact ⟨(l, 0 + u) :: (l', total) :: before, after, rfl, rfl⟩
    · exact ⟨(l', total + u) :: before, after, rfl, rfl⟩
    · obtain ⟨before', after', hs, ht'⟩ := ih (List.pairwise_cons.1 ht).2
      exact ⟨(l', total) :: before', after', by rw [hs]; rfl, by rw [ht']; rfl⟩

theorem InsertedAt.addAll (h : InsertedAt k v s t) (ht : t.Ascending)
    {contributions : List (κ × α)} (hk : k ∉ contributions.map Prod.fst) :
    InsertedAt k v (s.addAll contributions) (t.addAll contributions) := by
  induction contributions generalizing s t with
  | nil => exact h
  | cons p rest ih =>
    rw [List.map_cons, List.mem_cons, not_or] at hk
    exact ih (h.add ht (Ne.symm hk.1) p.2) (ht.add p.1 p.2) hk.2

theorem insertedAt_ofList (v : α) {before after : List (κ × α)}
    (hk : k ∉ (before ++ after).map Prod.fst) :
    InsertedAt k (0 + v) (ofList (before ++ after)) (ofList (before ++ (k, v) :: after)) := by
  rw [List.map_append, List.mem_append, not_or] at hk
  have hnew : k ∉ (ofList before).keys := fun hmem => hk.1 (mem_keys_ofList.1 hmem)
  have hsplit : ∀ rest, ofList (before ++ rest) = (ofList before).addAll rest := fun rest => by
    rw [ofList, addAll, List.foldl_append]
    rfl
  rw [hsplit, hsplit]
  exact (insertedAt_add v hnew).addAll ((ascending_ofList before).add k v) hk.2

end InsertedAt

end Semidefinite.Tally
