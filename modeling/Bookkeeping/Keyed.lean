set_option autoImplicit false

/-! # Items by key

A row of items in which no key stands twice. An item is found by its key. Where one is put in under
a key that is taken, it is told what becomes of the item that has the key; it stays in its place.
A new key stands last. -/

namespace Bookkeeping

/-- Items in a row, no two of which have the same key. -/
structure Keyed {α κ : Type} (key : α → κ) where
  items : List α
  nodup : (items.map key).Nodup

namespace Keyed

variable {α κ : Type} {key : α → κ}

/-- No items. -/
def empty : Keyed key := ⟨[], .nil⟩

/-- Where no key stands twice, no item before or after another one has its key. -/
theorem key_ne_of_splits {front back : List α} {a b : α}
    (hnodup : ((front ++ a :: back).map key).Nodup) (hb : b ∈ front ++ back) : key b ≠ key a := by
  rw [List.map_append, List.map_cons, List.nodup_append, List.nodup_cons] at hnodup
  obtain ⟨-, ⟨hback, -⟩, hfront⟩ := hnodup
  rcases List.mem_append.1 hb with hb | hb
  · exact hfront (key b) (List.mem_map_of_mem hb) (key a) (by simp)
  · exact fun heq => hback (heq ▸ List.mem_map_of_mem hb)

section

variable [DecidableEq κ]

/-- The item of a key. -/
def find? (c : Keyed key) (k : κ) : Option α :=
  c.items.find? (key · = k)

/-! ## Putting items in -/

/-- Changes the items that have the key of a fresh one, which comes last if there are none. -/
def upsertIn (key : α → κ) (fresh : α) (f : α → α) : List α → List α
  | [] => [fresh]
  | a :: rest => if key a = key fresh then f a :: rest else a :: upsertIn key fresh f rest

theorem map_key_upsertIn {fresh : α} {f : α → α}
    (hf : ∀ a, key a = key fresh → key (f a) = key fresh) (items : List α) :
    (upsertIn key fresh f items).map key =
      if key fresh ∈ items.map key then items.map key else items.map key ++ [key fresh] := by
  induction items with
  | nil => rfl
  | cons a rest ih =>
      rw [upsertIn]
      by_cases ha : key a = key fresh
      · rw [if_pos ha, if_pos (by simp [ha]), List.map_cons, List.map_cons, hf a ha, ha]
      · rw [if_neg ha, List.map_cons, List.map_cons, ih]
        have hmem : key fresh ∈ key a :: rest.map key ↔ key fresh ∈ rest.map key := by
          simp [Ne.symm ha]
        simp only [hmem]
        split <;> rfl

/-- Changes the item that has the key of a fresh one, or puts in the fresh one. -/
def upsert (c : Keyed key) (fresh : α) (f : α → α)
    (hf : ∀ a, key a = key fresh → key (f a) = key fresh) : Keyed key where
  items := upsertIn key fresh f c.items
  nodup := by
    rw [map_key_upsertIn hf]
    split
    · exact c.nodup
    · next hnew =>
        rw [List.nodup_append]
        refine ⟨c.nodup, by simp, ?_⟩
        rintro k hk _ hlast rfl
        exact hnew (List.mem_singleton.1 hlast ▸ hk)

/-- Puts an item in, in place of the one that has its key. -/
def insert (c : Keyed key) (a : α) : Keyed key :=
  c.upsert a (fun _ => a) fun _ _ => rfl

/-- The items of a list put in one after another. -/
def ofList (items : List α) : Keyed key :=
  items.foldl insert empty

/-! ## Finding them -/

@[simp] theorem find?_empty (k : κ) : (empty : Keyed key).find? k = none := rfl

/-- What is found under a key is the item that has it. -/
theorem find?_eq_some_iff (c : Keyed key) {k : κ} {a : α} :
    c.find? k = some a ↔ a ∈ c.items ∧ key a = k := by
  constructor
  · intro h
    exact ⟨List.mem_of_find?_eq_some h, by simpa using List.find?_some h⟩
  · rintro ⟨hmem, rfl⟩
    obtain ⟨before, after, hsplit⟩ := List.append_of_mem hmem
    have hnodup := c.nodup
    rw [hsplit] at hnodup
    have hbefore : before.find? (key · = key a) = none :=
      List.find?_eq_none.2 fun b hb heq =>
        key_ne_of_splits hnodup (List.mem_append_left after hb) (by simpa using heq)
    rw [find?, hsplit, List.find?_append, hbefore]
    simp

theorem find?_upsert (c : Keyed key) {fresh : α} {f : α → α}
    (hf : ∀ a, key a = key fresh → key (f a) = key fresh) (k : κ) :
    (c.upsert fresh f hf).find? k =
      if key fresh = k then some ((c.find? k).elim fresh f) else c.find? k := by
  show (upsertIn key fresh f c.items).find? _ = _
  unfold find?
  induction c.items with
  | nil => by_cases h : key fresh = k <;> simp [upsertIn, h]
  | cons a rest ih =>
      rw [upsertIn]
      by_cases ha : key a = key fresh
      · rw [if_pos ha]
        by_cases hk : key fresh = k <;> simp [hf a ha, ha, hk]
      · rw [if_neg ha]
        by_cases hk : key a = k
        · have hne : ¬ key fresh = k := fun h => ha (hk.trans h.symm)
          simp [hk, hne]
        · simp [hk, ih]

/-- An item that is put in is found under its key, the others as before. -/
theorem find?_insert (c : Keyed key) (a : α) (k : κ) :
    (c.insert a).find? k = if key a = k then some a else c.find? k := by
  rw [insert, find?_upsert]
  cases c.find? k <;> rfl

/-- An item among the others is found under its key, the others as before. -/
theorem find?_of_splits {c d : Keyed key} {front back : List α} {a : α}
    (hc : c.items = front ++ back) (hd : d.items = front ++ a :: back) (k : κ) :
    d.find? k = if key a = k then some a else c.find? k := by
  have hmem (b : α) : b ∈ d.items ↔ b = a ∨ b ∈ c.items := by
    rw [hc, hd]
    simp [or_left_comm]
  split
  · next hk => exact (find?_eq_some_iff d).2 ⟨(hmem a).2 (.inl rfl), hk⟩
  · next hk =>
      ext b
      rw [find?_eq_some_iff, find?_eq_some_iff, hmem]
      constructor
      · rintro ⟨rfl | hb, hkey⟩
        · exact absurd hkey hk
        · exact ⟨hb, hkey⟩
      · rintro ⟨hb, hkey⟩
        exact ⟨.inr hb, hkey⟩

/-- Where an item is put among others, none of them has its key. -/
theorem find?_eq_none_of_splits {c d : Keyed key} {front back : List α} {a : α}
    (hc : c.items = front ++ back) (hd : d.items = front ++ a :: back) :
    c.find? (key a) = none := by
  have hnodup := d.nodup
  rw [hd] at hnodup
  rw [find?, hc, List.find?_eq_none]
  exact fun b hb heq => key_ne_of_splits hnodup hb (by simpa using heq)

end

end Keyed

end Bookkeeping
