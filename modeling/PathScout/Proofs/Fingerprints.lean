import PathScout.KeptState
import PathScout.Proofs.SortedMaps

/-!
# Fingerprints do not depend on history

A map that keeps a fingerprint holds the exclusive or of the hashes of its entries after every
sequence of changes: what an insertion, a removal or a test takes away from the fingerprint and adds
to it is the hash of the entry that goes and of the entry that comes. Maps are therefore equal exactly
if they hold the same values, and so are values, memory and states, at any depth of snapshots.

* `FingerprintMap.Sound`, `FingerprintMap.Sound.apply`: what every change keeps.
* `FingerprintMap.map_build`: the map under the fingerprint is what the same changes make without it.
* `FingerprintMap.Sound.beq_iff_get?`: what equal maps hold.
* `KeptValue.Built.eq_of_content`: a value is determined by what is left without fingerprints.
* `KeptState.identity_of_contents`: all of this, for maps and for states.
-/

namespace PathScout

open FingerprintMap List

namespace OrderedMap

variable {κ ν : Type} [Ord κ] [LawfulKey κ] {k : κ} {v : ν} {es : List (κ × ν)}
  (H : κ → ν → UInt64)

/-! ### The exclusive or of some hashes -/

/-- The hash of the entry of a key, if there is one. -/
def heldHash (k : κ) (es : List (κ × ν)) : UInt64 := (lookup k es).elim 0 (H k)

theorem heldHash_cons_self : heldHash H k ((k, v) :: es) = H k v := by
  classical
  rw [heldHash, lookup_cons, if_pos rfl, Option.elim_some]

theorem heldHash_cons_of_ne {l : κ} {w : ν} (h : k ≠ l) :
    heldHash H k ((l, w) :: es) = heldHash H k es := by
  classical
  rw [heldHash, lookup_cons, if_neg h, heldHash]

theorem heldHash_of_forall_ne (h : ∀ e ∈ es, e.1 ≠ k) : heldHash H k es = 0 := by
  rw [heldHash, lookup_eq_none h, Option.elim_none]

theorem xor_cancel (a b : UInt64) : a ^^^ b ^^^ a = b := by
  rw [UInt64.xor_comm a b, UInt64.xor_assoc, UInt64.xor_self, UInt64.xor_zero]

/-- A new entry replaces the hash of the entry that had its key. -/
theorem xorAll_put [Std.TransOrd κ] (h : Sorted es) (k : κ) (v : ν) :
    xorAll H (put k v es) = xorAll H es ^^^ heldHash H k es ^^^ H k v := by
  induction es with
  | nil =>
    rw [heldHash_of_forall_ne H fun _ h => absurd h not_mem_nil, put, xorAll, xorAll]
    ac_rfl
  | cons e es ih =>
    obtain ⟨l, w⟩ := e
    obtain ⟨hhead, htail⟩ := pairwise_cons.1 h
    rw [put]
    split
    · next hlt =>
      rw [heldHash_of_forall_ne H (h.ne_of_lt hlt), xorAll, UInt64.xor_zero, UInt64.xor_comm]
    · next heq =>
      obtain rfl := LawfulKey.compare_eq.1 heq
      rw [heldHash_cons_self, xorAll, xorAll, xor_cancel, UInt64.xor_comm]
    · next hgt =>
      have hne : k ≠ l := fun e => by
        rw [LawfulKey.compare_eq.2 e] at hgt
        cases hgt
      rw [heldHash_cons_of_ne H hne, xorAll, xorAll, ih htail]
      ac_rfl

/-- An entry that goes takes its hash with it. -/
theorem xorAll_erase (h : Sorted es) (k : κ) :
    xorAll H (es.filter fun e => compare k e.1 != .eq) = xorAll H es ^^^ heldHash H k es := by
  induction es with
  | nil => rw [heldHash_of_forall_ne H fun _ h => absurd h not_mem_nil, UInt64.xor_zero]; rfl
  | cons e es ih =>
    obtain ⟨l, w⟩ := e
    rw [filter_cons]
    by_cases hk : k = l
    · subst hk
      -- no other entry has the key
      have hrest : es.filter (fun e => compare k e.1 != .eq) = es := by
        refine filter_eq_self.2 fun a ha => ?_
        rw [bne_iff_ne, ne_eq, LawfulKey.compare_eq]
        exact (h.ne_of_mem ha).symm
      rw [if_neg (by simp [LawfulKey.compare_eq]), hrest, heldHash_cons_self, xorAll, xor_cancel]
    · rw [if_pos (by simpa [LawfulKey.compare_eq] using hk), heldHash_cons_of_ne H hk, xorAll, xorAll,
        ih h.of_cons, UInt64.xor_assoc]

end OrderedMap

namespace FingerprintMap

open OrderedMap

/-! ### Equal maps -/

section

variable {κ ν : Type} [BEq κ] [LawfulBEq κ] [BEq ν] {m n : FingerprintMap κ ν}

/-- Maps are equal if their fingerprints are, and they agree entry by entry. -/
theorem beq_iff : (m == n) = true ↔ m.fingerprint = n.fingerprint ∧
    List.Forall₂ (fun a b => a.1 = b.1 ∧ (a.2 == b.2) = true) m.map.entries n.map.entries := by
  have hpair : ∀ a b : κ × ν, (a == b) = true ↔ a.1 = b.1 ∧ (a.2 == b.2) = true := fun a b => by
    rw [← beq_iff_eq (a := a.1)]
    exact Bool.and_eq_true_iff
  show (m.map.entries.length == n.map.entries.length && m.fingerprint == n.fingerprint &&
    (m.map.entries.zip n.map.entries).all fun p => p.1 == p.2) = true ↔ _
  rw [Bool.and_eq_true_iff, Bool.and_eq_true_iff, beq_iff_eq, beq_iff_eq, all_eq_true,
    forall₂_iff_zip, and_comm (a := m.map.entries.length = _), and_assoc]
  refine and_congr_right fun _ => and_congr_right fun _ => ?_
  exact ⟨fun h a b hab => (hpair a b).1 (h (a, b) hab), fun h p hp => (hpair p.1 p.2).2 (h hp)⟩

/-- Equal maps feed equal words: their sizes and their fingerprints. -/
theorem words_eq_of_beq (h : (m == n) = true) : Feed.words m = Feed.words n := by
  obtain ⟨hfingerprint, hentries⟩ := beq_iff.1 h
  show [UInt64.ofNat m.map.entries.length, m.fingerprint] = [.ofNat n.map.entries.length, n.fingerprint]
  rw [hfingerprint, hentries.length_eq]

instance [LawfulBEq ν] : LawfulBEq (FingerprintMap κ ν) where
  eq_of_beq {m n} h := by
    obtain ⟨hfingerprint, hentries⟩ := beq_iff.1 h
    have heq : m.map.entries = n.map.entries := forall₂_eq_eq_eq ▸ hentries.imp fun a b hab =>
      Prod.ext hab.1 (eq_of_beq hab.2)
    cases m
    cases n
    cases hfingerprint
    exact congrArg₂ _ (congrArg OrderedMap.mk heq) rfl
  rfl {m} := beq_iff.2 ⟨rfl, forall₂_same.2 fun _ _ => ⟨rfl, BEq.rfl⟩⟩

end

section

variable {κ ν : Type} [BEq ν] [Feed κ] [Feed ν]

/-- Entries with equal values have equal hashes. -/
theorem xorAll_congr [LawfulFeed ν] {digest : List UInt64 → UInt64} {es es' : List (κ × ν)}
    (h : List.Forall₂ (fun a b => a.1 = b.1 ∧ (a.2 == b.2) = true) es es') :
    xorAll (entryHash digest) es = xorAll (entryHash digest) es' := by
  induction h with
  | nil => rfl
  | @cons a b es es' hab _ ih =>
    have hhash : entryHash digest a.1 a.2 = entryHash digest b.1 b.2 := by
      rw [entryHash, entryHash, hab.1, LawfulFeed.words_eq hab.2]
    show entryHash digest a.1 a.2 ^^^ _ = entryHash digest b.1 b.2 ^^^ _
    rw [hhash, ih]

end

variable {κ ν : Type} [Ord κ] [Feed κ] [Feed ν] {digest : List UInt64 → UInt64}
  {m n : FingerprintMap κ ν} {k : κ}

/-! ### What every change keeps -/

/-- The entries stand in order, and the fingerprint is the exclusive or of their hashes. -/
structure Sound (digest : List UInt64 → UInt64) (m : FingerprintMap κ ν) : Prop where
  sorted : Sorted m.map.entries
  fingerprint : m.fingerprint = m.map.fingerprint (entryHash digest)

theorem sound_empty : Sound digest ({} : FingerprintMap κ ν) := ⟨List.Pairwise.nil, rfl⟩

/-- A sound map is determined by its entries. -/
theorem Sound.ext (hm : m.Sound digest) (hn : n.Sound digest) (h : m.map = n.map) : m = n := by
  have hf : m.fingerprint = n.fingerprint := by rw [hm.fingerprint, hn.fingerprint, h]
  cases m
  cases n
  cases h
  cases hf
  rfl

section

variable [LawfulKey κ]

theorem Sound.remove (h : m.Sound digest) (k : κ) : (m.remove digest k).Sound digest := by
  unfold FingerprintMap.remove
  split
  · next old hold =>
    refine ⟨h.sorted.filter _, ?_⟩
    have herase := xorAll_erase (entryHash digest) h.sorted k
    rw [heldHash, show lookup k m.map.entries = some old from hold, Option.elim_some] at herase
    rw [show m.fingerprint = xorAll (entryHash digest) m.map.entries from h.fingerprint]
    exact herase.symm
  · exact h

theorem Sound.retain (h : m.Sound digest) (keep : κ → ν → Bool) :
    (m.retain digest keep).Sound digest := by
  unfold FingerprintMap.retain
  induction m.map.entries generalizing m with
  | nil => exact h
  | cons e es ih =>
    rw [foldl_cons]
    split
    · exact ih h
    · exact ih (h.remove e.1)

variable [Std.TransOrd κ] [BEq ν]

theorem Sound.insert (h : m.Sound digest) (k : κ) (v : ν) : (m.insert digest k v).Sound digest := by
  have hput := xorAll_put (entryHash digest) h.sorted k v
  have hfp : m.fingerprint = xorAll (entryHash digest) m.map.entries := h.fingerprint
  unfold FingerprintMap.insert
  split
  · next old hold =>
    split
    · exact h
    · refine ⟨sorted_put h.sorted k v, ?_⟩
      rw [heldHash, show lookup k m.map.entries = some old from hold, Option.elim_some] at hput
      rw [hfp]
      exact hput.symm
  · next hnone =>
    refine ⟨sorted_put h.sorted k v, ?_⟩
    rw [heldHash, show lookup k m.map.entries = none from hnone, Option.elim_none,
      UInt64.xor_zero] at hput
    rw [hfp]
    exact hput.symm

theorem Sound.apply (h : m.Sound digest) (op : MapOp κ ν) : (m.apply digest op).Sound digest := by
  cases op with
  | insert k v => exact h.insert k v
  | remove k => exact h.remove k
  | retain keep => exact h.retain keep

theorem sound_build (digest : List UInt64 → UInt64) (ops : List (MapOp κ ν)) :
    (build digest ops).Sound digest := by
  suffices ∀ m : FingerprintMap κ ν, m.Sound digest → (ops.foldl (apply digest) m).Sound digest from
    this {} sound_empty
  induction ops with
  | nil => exact fun _ hm => hm
  | cons op ops ih => exact fun m hm => ih _ (hm.apply op)

end

/-! ### What is in a map -/

theorem mem_of_mem_remove {e : κ × ν} (h : e ∈ (m.remove digest k).map.entries) :
    e ∈ m.map.entries := by
  unfold FingerprintMap.remove at h
  split at h
  · exact mem_of_mem_filter h
  · exact h

theorem mem_of_mem_retain {e : κ × ν} {keep : κ → ν → Bool}
    (h : e ∈ (m.retain digest keep).map.entries) : e ∈ m.map.entries := by
  suffices ∀ (es : List (κ × ν)) (n : FingerprintMap κ ν),
      e ∈ (es.foldl (fun n a => if keep a.1 a.2 then n else n.remove digest a.1) n).map.entries →
        e ∈ n.map.entries from this _ _ h
  intro es
  induction es with
  | nil => exact fun _ h => h
  | cons a es ih =>
    intro n h
    rw [foldl_cons] at h
    split at h
    · exact ih n h
    · exact mem_of_mem_remove (ih _ h)

theorem mem_of_mem_apply [BEq ν] {op : MapOp κ ν} {e : κ × ν}
    (h : e ∈ (m.apply digest op).map.entries) : op = .insert e.1 e.2 ∨ e ∈ m.map.entries := by
  cases op with
  | insert k v =>
    have hput : ∀ {x : UInt64}, e ∈ (⟨m.map.insert k v, x⟩ : FingerprintMap κ ν).map.entries →
        MapOp.insert k v = .insert e.1 e.2 ∨ e ∈ m.map.entries := fun h =>
      (mem_of_mem_put h).imp_left fun he => by rw [he]
    change e ∈ (m.insert digest k v).map.entries at h
    unfold FingerprintMap.insert at h
    split at h
    · split at h
      · exact .inr h
      · exact hput h
    · exact hput h
  | remove k => exact .inr (mem_of_mem_remove h)
  | retain keep => exact .inr (mem_of_mem_retain h)

/-- A function that tells the members of two lists apart tells the lists apart. -/
theorem map_inj_of_mem {α β : Type} {f : α → β} {as bs : List α}
    (hf : ∀ a ∈ as, ∀ b ∈ bs, f a = f b → a = b) (h : as.map f = bs.map f) : as = bs := by
  refine ext_getElem (by simpa using congrArg List.length h) fun i ha hb => ?_
  refine hf _ (getElem_mem ha) _ (getElem_mem hb) ?_
  simpa [ha, hb] using congrArg (·[i]?) h

/-- Whatever a map holds was inserted. -/
theorem mem_insert_of_mem_build [BEq ν] {ops : List (MapOp κ ν)} {e : κ × ν}
    (h : e ∈ (build digest ops).map.entries) : .insert e.1 e.2 ∈ ops := by
  suffices ∀ m : FingerprintMap κ ν, e ∈ (ops.foldl (apply digest) m).map.entries →
      .insert e.1 e.2 ∈ ops ∨ e ∈ m.map.entries from (this {} h).resolve_right not_mem_nil
  clear h
  induction ops with
  | nil => exact fun _ h => .inr h
  | cons op ops ih =>
    intro m h
    rcases ih _ h with h | h
    · exact .inl (mem_cons_of_mem _ h)
    · refine (mem_of_mem_apply h).imp_left ?_
      rintro rfl
      exact mem_cons_self

variable [LawfulKey κ]

/-! ### The same changes without a fingerprint -/

theorem get?_remove [DecidableEq κ] (m : FingerprintMap κ ν) (k k' : κ) :
    (m.remove digest k).get? k' = if k' = k then none else m.get? k' := by
  unfold FingerprintMap.remove
  split
  · exact get?_erase m.map k k'
  · next hnone =>
    split
    · next hk => rw [hk, hnone]
    · rfl

/-- A key is taken away with the first of its entries that fails the test. -/
theorem get?_foldl_remove [DecidableEq κ] (keep : κ → ν → Bool) (k : κ) (es : List (κ × ν)) :
    (es.foldl (fun n e => if keep e.1 e.2 then n else n.remove digest e.1) m).get? k =
      if ∀ e ∈ es, e.1 = k → keep e.1 e.2 = true then m.get? k else none := by
  induction es generalizing m with
  | nil => simp
  | cons e es ih =>
    rw [foldl_cons, ih]
    simp only [forall_mem_cons]
    by_cases hkeep : keep e.1 e.2 = true
    · simp only [hkeep, if_true, implies_true, true_and]
    · rw [if_neg hkeep, get?_remove]
      by_cases hk : k = e.1
      · rw [if_pos hk, ite_self, if_neg fun h => hkeep (h.1 hk.symm)]
      · rw [if_neg hk]
        refine if_congr ?_ rfl rfl
        exact (and_iff_right fun h => absurd h.symm hk).symm

/-- The entries that fail a test are taken away, and no others. -/
theorem get?_retain (h : Sorted m.map.entries) (keep : κ → ν → Bool) (k : κ) :
    (m.retain digest keep).get? k = (m.get? k).filter (keep k) := by
  have hiff : (∀ e ∈ m.map.entries, e.1 = k → keep e.1 e.2 = true) ↔
      ∀ v, m.get? k = some v → keep k v = true := by
    constructor
    · exact fun hall v hv => hall (k, v) (h.mem_iff.2 hv) rfl
    · rintro hall ⟨l, v⟩ he rfl
      exact hall v (h.mem_iff.1 he)
  classical
  rw [FingerprintMap.retain, get?_foldl_remove, if_congr hiff rfl rfl]
  cases hv : m.get? k with
  | none => rw [ite_self, Option.filter_none]
  | some v =>
    rw [Option.filter_some]
    refine if_congr ?_ rfl rfl
    exact ⟨fun hall => hall v rfl, fun hkeep w hw => Option.some.inj hw ▸ hkeep⟩

variable [Std.TransOrd κ] [BEq ν]

/-- A change does to the entries what it does to a map without a fingerprint. -/
theorem map_apply [LawfulBEq ν] (h : m.Sound digest) (op : MapOp κ ν) :
    (m.apply digest op).map = m.map.apply op := by
  classical
  have hsorted := (h.apply op).sorted
  have hext : (∀ k, (m.apply digest op).get? k = (m.map.apply op).get? k) →
      (m.apply digest op).map = m.map.apply op := fun hget =>
    congrArg OrderedMap.mk (eq_of_lookup_eq hsorted (sorted_apply h.sorted op) hget)
  cases op with
  | insert k v =>
    refine hext fun l => ?_
    exact (get?_insert digest m k l v).trans (lookup_put m.map.entries).symm
  | remove k =>
    refine hext fun l => ?_
    exact (get?_remove m k l).trans (get?_erase m.map k l).symm
  | retain keep =>
    refine hext fun l => ?_
    exact (get?_retain h.sorted keep l).trans (get?_filter_value h.sorted keep l).symm

theorem map_build [LawfulBEq ν] (digest : List UInt64 → UInt64) (ops : List (MapOp κ ν)) :
    (build digest ops).map = OrderedMap.build ops := by
  suffices ∀ m : FingerprintMap κ ν, m.Sound digest →
      (ops.foldl (apply digest) m).map = ops.foldl OrderedMap.apply m.map from this {} sound_empty
  induction ops with
  | nil => exact fun _ _ => rfl
  | cons op ops ih =>
    intro m hm
    rw [foldl_cons, foldl_cons, ih _ (hm.apply op), map_apply hm]

/-! ### What equal maps hold -/

/-- Maps that were made by changes are equal exactly if all keys have equal values. -/
theorem Sound.beq_iff_get? [BEq κ] [LawfulBEq κ] [LawfulFeed ν] (hm : m.Sound digest)
    (hn : n.Sound digest) : (m == n) = true ↔ ∀ k, (m.get? k == n.get? k) = true := by
  have hrel : ∀ x y : Option ν, Option.Rel (fun v w => (v == w) = true) x y ↔ (x == y) = true := by
    rintro (_ | v) (_ | w)
    · exact ⟨fun _ => rfl, fun _ => .none⟩
    · exact ⟨nofun, nofun⟩
    · exact ⟨nofun, nofun⟩
    · exact ⟨fun | .some h => h, fun h => .some h⟩
  rw [beq_iff]
  constructor
  · exact fun h k => (hrel _ _).1 (lookup_rel_of_forall₂ h.2 k)
  · intro h
    have hentries := forall₂_of_lookup hm.sorted hn.sorted fun k => (hrel _ _).2 (h k)
    refine ⟨?_, hentries⟩
    rw [hm.fingerprint, hn.fingerprint]
    exact xorAll_congr hentries

/-- Maps that were made by changes are equal if what is read off their values is the same, and tells
the values apart. -/
theorem build_eq_of_contents {μ : Type} {ops ops' : List (MapOp κ ν)} {f : ν → μ}
    (hf : ∀ {k v k' v'}, .insert k v ∈ ops → .insert k' v' ∈ ops' → f v = f v' → v = v')
    (h : (build digest ops).contents f = (build digest ops').contents f) :
    build digest ops = build digest ops' := by
  refine (sound_build digest ops).ext (sound_build digest ops') (congrArg OrderedMap.mk ?_)
  refine map_inj_of_mem (fun a ha b hb hab => ?_) (congrArg OrderedMap.entries h)
  obtain ⟨hkey, hvalue⟩ := Prod.mk.inj hab
  exact Prod.ext hkey (hf (mem_insert_of_mem_build ha) (mem_insert_of_mem_build hb) hvalue)

end FingerprintMap

/-! ### Values -/

instance {α : Type} [BEq α] [LawfulBEq α] [Feed α] : LawfulFeed α :=
  ⟨fun h => congrArg Feed.words (eq_of_beq h)⟩

namespace KeptValue

mutual

theorem eq_of_beq : {v w : KeptValue} → beq v w = true → v = w
  | .snapshot s f r, w, h => by
    cases w with
    | snapshot t g q =>
      rw [beq, Bool.and_eq_true, Bool.and_eq_true, Bool.and_eq_true, beq_iff_eq, beq_iff_eq,
        beq_iff_eq] at h
      obtain ⟨⟨⟨hlen, rfl⟩, hst⟩, rfl⟩ := h
      rw [eq_of_beqBindings hlen hst]
    | _ => cases h
  | .undefined, w, h | .unknown, w, h => by
    cases w with
    | undefined | unknown => first | rfl | cases h
    | _ => cases h
  | .loc l, w, h | .int n, w, h | .symbol x, w, h | .locAsInt l, w, h => by
    cases w with
    | loc l' | int n' | symbol x' | locAsInt l' =>
      first
      | cases h
      | rw [beq, beq_iff_eq] at h
        rw [h]
    | _ => cases h

theorem eq_of_beqBindings : {s t : List (BindingKey × KeptValue)} → s.length = t.length →
    beqBindings s t = true → s = t
  | [], [], _, _ => rfl
  | (k, v) :: s, (l, w) :: t, hlen, h => by
    rw [beqBindings, Bool.and_eq_true, Bool.and_eq_true, beq_iff_eq] at h
    rw [h.1.1, eq_of_beq h.1.2, eq_of_beqBindings (Nat.succ.inj hlen) h.2]

end

mutual

theorem beq_refl : (v : KeptValue) → beq v v = true
  | .snapshot s f r => by
    rw [beq, beqBindings_refl s]
    simp
  | .undefined | .unknown => rfl
  | .loc l | .int n | .symbol x | .locAsInt l => by rw [beq, beq_self_eq_true]

theorem beqBindings_refl : (s : List (BindingKey × KeptValue)) → beqBindings s s = true
  | [] => rfl
  | (k, v) :: s => by rw [beqBindings, beq_refl v, beqBindings_refl s, beq_self_eq_true]; rfl

end

instance : LawfulBEq KeptValue where
  eq_of_beq := eq_of_beq
  rfl := beq_refl _

theorem contentBindings_eq_map (s : List (BindingKey × KeptValue)) :
    contentBindings s = s.map fun e => (e.1, content e.2) := by
  induction s with
  | nil => rfl
  | cons e s ih => rw [contentBindings, ih, map_cons]

/-- A value is determined by what is left of it without fingerprints: those of the memory in its
snapshots come from the bindings there. -/
theorem Built.eq_of_content {digest : List UInt64 → UInt64} {v w : KeptValue} (hv : v.Built digest)
    (hw : w.Built digest) (h : v.content = w.content) : v = w := by
  induction hv generalizing w with
  | @snapshot ops r _ ih =>
    cases hw with
    | @snapshot ops' q values' =>
      simp only [KeptStore.snapshot, content, Value.snapshot.injEq, contentBindings_eq_map] at h
      obtain ⟨hbindings, rfl⟩ := h
      have heq : FingerprintMap.build digest ops = FingerprintMap.build digest ops' :=
        build_eq_of_contents (f := content)
          (fun hk hk' hvw => ih _ _ hk (values' _ _ hk') hvw) (congrArg OrderedMap.mk hbindings)
      rw [heq]
    | _ => cases h
  | _ =>
    cases hw with
    | _ => cases h <;> rfl

end KeptValue

/-! ### States -/

namespace KeptState

variable {digest : List UInt64 → UInt64} {a b : KeptState}

instance : LawfulBEq KeptState where
  eq_of_beq {a b} h := by
    have h : (a.env == b.env && a.store == b.store && a.constraints == b.constraints &&
      a.heap == b.heap) = true := h
    simp only [Bool.and_eq_true, beq_iff_eq] at h
    obtain ⟨⟨⟨henv, hstore⟩, hconstraints⟩, hheap⟩ := h
    cases a
    cases b
    congr
  rfl {a} := by
    show (a.env == a.env && a.store == a.store && a.constraints == a.constraints &&
      a.heap == a.heap) = true
    simp only [beq_self_eq_true, Bool.and_self]

/-- Maps of values that were made by changes are equal exactly if what they hold is. -/
theorem beq_iff_contents {κ : Type} [Ord κ] [LawfulKey κ] [Std.TransOrd κ] [BEq κ] [LawfulBEq κ]
    [Feed κ] {m n : FingerprintMap κ KeptValue}
    (hm : ∃ ops, m = .build digest ops ∧ ∀ k v, .insert k v ∈ ops → v.Built digest)
    (hn : ∃ ops, n = .build digest ops ∧ ∀ k v, .insert k v ∈ ops → v.Built digest) :
    (m == n) = true ↔ m.contents KeptValue.content = n.contents KeptValue.content := by
  obtain ⟨ops, rfl, hops⟩ := hm
  obtain ⟨ops', rfl, hops'⟩ := hn
  rw [beq_iff_eq]
  refine ⟨fun h => h ▸ rfl, build_eq_of_contents fun hk hk' hvw => ?_⟩
  exact (hops _ _ hk).eq_of_content (hops' _ _ hk') hvw

theorem beq_iff_map {κ ν : Type} [Ord κ] [LawfulKey κ] [Std.TransOrd κ] [BEq κ] [LawfulBEq κ]
    [Feed κ] [BEq ν] [LawfulBEq ν] [Feed ν] {m n : FingerprintMap κ ν}
    (hm : ∃ ops, m = .build digest ops) (hn : ∃ ops, n = .build digest ops) :
    (m == n) = true ↔ m.map = n.map := by
  obtain ⟨ops, rfl⟩ := hm
  obtain ⟨ops', rfl⟩ := hn
  rw [beq_iff_eq]
  exact ⟨fun h => h ▸ rfl, (sound_build digest ops).ext (sound_build digest ops')⟩

theorem beq_iff_content (ha : a.Built digest) (hb : b.Built digest) :
    (a == b) = true ↔ a.content = b.content := by
  have hcontent : a.content = b.content ↔
      ((a.env.contents KeptValue.content = b.env.contents KeptValue.content ∧
        a.store.contents KeptValue.content = b.store.contents KeptValue.content) ∧
          a.constraints.map = b.constraints.map) ∧ a.heap.map = b.heap.map := by
    simp only [content, State.mk.injEq, Store.mk.injEq, and_assoc]
  rw [hcontent, ← beq_iff_contents ha.env hb.env, ← beq_iff_contents ha.store hb.store,
    ← beq_iff_map ha.constraints hb.constraints, ← beq_iff_map ha.heap hb.heap,
    ← Bool.and_eq_true_iff, ← Bool.and_eq_true_iff, ← Bool.and_eq_true_iff]
  rfl

/-- **History does not matter.** After any sequence of changes, a map holds the exclusive or of the
hashes of its entries as its fingerprint, and its entries are what the same changes make of a map
without a fingerprint. Two such maps are equal exactly if every key has the same value in them, and
equal maps feed equal words to a hasher. Values, the maps of a state and states are equal exactly if
what is left of them without fingerprints is equal. -/
theorem identity_of_contents {κ ν : Type} [Ord κ] [LawfulKey κ] [Std.TransOrd κ] [BEq κ]
    [LawfulBEq κ] [BEq ν] [Feed κ] [Feed ν] [LawfulFeed ν] (digest : List UInt64 → UInt64)
    (ops ops' : List (MapOp κ ν)) {v w : KeptValue} (hv : v.Built digest) (hw : w.Built digest)
    {a b : KeptState} (ha : a.Built digest) (hb : b.Built digest) :
    let m := FingerprintMap.build digest ops
    let n := FingerprintMap.build digest ops'
    m.fingerprint = m.map.fingerprint (FingerprintMap.entryHash digest) ∧
      (LawfulBEq ν → m.map = OrderedMap.build ops) ∧
      ((m == n) = true ↔ ∀ k, (m.get? k == n.get? k) = true) ∧
      ((m == n) = true → Feed.words m = Feed.words n) ∧
      ((v == w) = true ↔ v.content = w.content) ∧
      ((a.env == b.env) = true ↔ a.content.env = b.content.env) ∧
      ((a.store == b.store) = true ↔ a.content.store = b.content.store) ∧
      ((a.constraints == b.constraints) = true ↔ a.content.constraints = b.content.constraints) ∧
      ((a.heap == b.heap) = true ↔ a.content.heap = b.content.heap) ∧
      ((a == b) = true ↔ a.content = b.content) ∧
      ((a == b) = true → Feed.words a = Feed.words b) := by
  intro m n
  have hm : m.Sound digest := sound_build digest ops
  have hn : n.Sound digest := sound_build digest ops'
  refine ⟨hm.fingerprint, fun _ => map_build digest ops, hm.beq_iff_get? hn,
    words_eq_of_beq, ?_, beq_iff_contents ha.env hb.env, ?_,
    beq_iff_map ha.constraints hb.constraints, beq_iff_map ha.heap hb.heap,
    beq_iff_content ha hb, LawfulFeed.words_eq⟩
  · rw [beq_iff_eq]
    exact ⟨fun h => h ▸ rfl, hv.eq_of_content hw⟩
  · rw [beq_iff_contents ha.store hb.store]
    exact (Store.mk.injEq ..).symm ▸ Iff.rfl

/-- A variable is written once, or twice with another one in between that goes again. -/
def writtenOnce : List (MapOp BindingKey KeptValue) := [.insert (.direct ⟨1⟩) (.int 1)]

@[inherit_doc writtenOnce]
def writtenTwice : List (MapOp BindingKey KeptValue) :=
  [.insert (.direct ⟨1⟩) (.int 2), .insert (.direct ⟨2⟩) .unknown, .insert (.direct ⟨1⟩) (.int 1),
    .remove (.direct ⟨2⟩)]

/-- A state where the memory that some writes make is copied to another place. -/
def copied (ops : List (MapOp BindingKey KeptValue)) : KeptState where
  store := .build Feed.digest
    (ops ++ [.insert (.default ⟨3⟩) (KeptStore.snapshot (.build Feed.digest ops) ⟨1⟩)])

theorem built_copied {ops : List (MapOp BindingKey KeptValue)}
    (h : ∀ k v, .insert k v ∈ ops → v.Built Feed.digest) : (copied ops).Built Feed.digest where
  env := ⟨[], rfl, fun _ _ h => absurd h not_mem_nil⟩
  store := by
    refine ⟨_, rfl, fun k v hkv => ?_⟩
    rcases mem_append.1 hkv with hkv | hkv
    · exact h k v hkv
    · cases mem_singleton.1 hkv
      exact .snapshot _ h
  constraints := ⟨[], rfl⟩
  heap := ⟨[], rfl⟩

/-- Both ways to write the variable make the same state, with the same copy in it. -/
theorem copied_beq_copied :
    (copied writtenOnce).Built Feed.digest ∧ (copied writtenTwice).Built Feed.digest ∧
      (copied writtenOnce == copied writtenTwice) = true := by
  have honce : ∀ k v, .insert k v ∈ writtenOnce → v.Built Feed.digest := by
    intro k v hkv
    cases mem_singleton.1 hkv
    exact .int 1
  have htwice : ∀ k v, .insert k v ∈ writtenTwice → v.Built Feed.digest := by
    intro k v hkv
    simp only [writtenTwice, mem_cons, MapOp.insert.injEq, reduceCtorEq, not_mem_nil,
      or_false] at hkv
    rcases hkv with ⟨-, rfl⟩ | ⟨-, rfl⟩ | ⟨-, rfl⟩
    · exact .int 2
    · exact .unknown
    · exact .int 1
  have ha := built_copied honce
  have hb := built_copied htwice
  obtain ⟨-, -, -, -, -, -, -, -, -, hstates, -⟩ := identity_of_contents Feed.digest writtenOnce
    writtenTwice (.snapshot ⟨1⟩ honce) (.snapshot ⟨1⟩ htwice) ha hb
  exact ⟨ha, hb, hstates.2 rfl⟩

end KeptState

end PathScout
