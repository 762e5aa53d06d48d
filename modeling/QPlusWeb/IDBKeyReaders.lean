import QPlusWeb.IDBKeyCoding

/-!
# Both readers stop where the writer stopped

`decodeIDBKey` rebuilds a key and `extractEncodedIDBKey` copies its bytes out
without looking inside. On written keys both consume exactly what was written,
whatever follows. On arbitrary bytes the copying reader follows the decoding
reader wherever that one succeeds, including over-long integers, because both
advance through the same length prefixes.
-/
namespace QPlusWeb.IDB
open List Option

theorem readMany_append {α : Type} (read : Reader α) {encode : α → Bytes} (xs : List α)
    (h : ∀ x ∈ xs, ∀ s, read (encode x++s) = some (x,s)) (s : Bytes) :
    readMany read xs.length (xs.flatMap encode++s) = some (xs,s) := by
  induction xs with
  | nil => rfl
  | cons x xs ih =>
    have hx := h x mem_cons_self (xs.flatMap encode++s)
    have hxs := ih fun y hy => h y (mem_cons_of_mem x hy)
    simp [readMany,hx,hxs]

/-- A count of reads follows another reader that succeeds step by step. -/
theorem readMany_follows {α β : Type} {read : Reader α} {skip : Reader β}
    (h : ∀ p x r, read p = some (x,r) → ∃ y, skip p = some (y,r)) (n : ℕ) (p : Bytes)
    (xs : List α) (r : Bytes) (hr : readMany read n p = some (xs,r)) :
    ∃ ys, readMany skip n p = some (ys,r) := by
  induction n generalizing p xs with
  | zero =>
    simp only [readMany,Option.some.injEq,Prod.mk.injEq] at hr
    exact ⟨[],by simp [readMany,hr.2]⟩
  | succ n ih =>
    simp only [readMany,bind_eq_some_iff,map_eq_some_iff] at hr
    obtain ⟨⟨x,q⟩,hx,⟨xs',r'⟩,hxs,heq⟩ := hr
    obtain ⟨-,rfl⟩ := heq
    obtain ⟨y,hy⟩ := h p x q hx
    obtain ⟨ys,hys⟩ := ih q xs' hxs
    exact ⟨y::ys,by simp [readMany,hy,hys]⟩

theorem encodeIDBKeys_eq (ks : List IDBKey) : encodeIDBKeys ks = ks.flatMap encodeIDBKey := by
  induction ks with
  | nil => simp [encodeIDBKeys]
  | cons k ks ih => simp [encodeIDBKeys,ih]

theorem length_encodeIDBKey_of_mem {k : IDBKey} {ks : List IDBKey} (h : k ∈ ks) :
    (encodeIDBKey k).length < (encodeIDBKey (.array ks)).length := by
  have hle : (encodeIDBKey k).length ≤ (ks.flatMap encodeIDBKey).length := by
    obtain ⟨as,bs,rfl⟩ := append_of_mem h
    simp only [flatMap_append,flatMap_cons,length_append]
    omega
  simp only [encodeIDBKey,encodeIDBKeys_eq,encodeByte,length_append,length_cons]
  omega

theorem exists_fuel {k : IDBKey} {fuel : ℕ} (h : (encodeIDBKey k).length ≤ fuel) :
    ∃ n, fuel = n+1 := by
  cases fuel with
  | zero => cases k <;> simp [encodeIDBKey,encodeByte] at h
  | succ n => exact ⟨n,rfl⟩

theorem drop_of_decodeDouble {p r : Bytes} {d : Double} (h : decodeDouble p = some (d,r)) :
    ¬p.length < 8 ∧ p.drop 8 = r := by
  unfold decodeDouble at h
  split_ifs at h with hs
  simp only [Option.some.injEq,Prod.mk.injEq] at h
  exact ⟨hs,h.2⟩

section
variable [WideShift] {k : IDBKey}

/-- The decoder needs one unit of fuel per nesting, so the bytes are enough. -/
theorem decodeIDBKeyFuel_encode (k : IDBKey) (hk : k.Fits) (fuel : ℕ)
    (hf : (encodeIDBKey k).length ≤ fuel) (s : Bytes) :
    decodeIDBKeyFuel fuel (encodeIDBKey k++s) = some (k,s) := by
  induction k generalizing fuel s with
  | array ks ih =>
    simp only [IDBKey.Fits] at hk
    obtain ⟨fuel,rfl⟩ := exists_fuel hf
    have hmany := readMany_append (decodeIDBKeyFuel fuel) ks
      (fun k hm t => ih k hm (hk.2.of_mem hm) fuel
        (by have := length_encodeIDBKey_of_mem hm; omega) t) s
    simp only [encodeIDBKey,encodeByte,cons_append,nil_append,
      append_assoc,decodeIDBKeyFuel,encodeIDBKeys_eq]
    rw [if_neg (by decide),if_true,decodeLength_encodeVarInt (by omega),bind_some,hmany]
    rfl
  | invalid =>
    obtain ⟨fuel,rfl⟩ := exists_fuel hf
    simp [encodeIDBKey,encodeByte,decodeIDBKeyFuel]
  | string t =>
    obtain ⟨fuel,rfl⟩ := exists_fuel hf
    simp only [encodeIDBKey,encodeByte,cons_append,nil_append,decodeIDBKeyFuel]
    rw [if_neg (by decide),if_neg (by decide),if_true,decodeStringWithLength_encode hk]
    rfl
  | date d =>
    obtain ⟨fuel,rfl⟩ := exists_fuel hf
    simp only [encodeIDBKey,encodeByte,cons_append,nil_append,decodeIDBKeyFuel]
    rw [if_neg (by decide),if_neg (by decide),if_neg (by decide),if_true,decodeDouble_encodeDouble]
    rfl
  | number d =>
    obtain ⟨fuel,rfl⟩ := exists_fuel hf
    simp only [encodeIDBKey,encodeByte,cons_append,nil_append,decodeIDBKeyFuel]
    rw [if_neg (by decide),if_neg (by decide),if_neg (by decide),if_neg (by decide),
      if_true,decodeDouble_encodeDouble]
    rfl

theorem decodeIDBKey_encodeIDBKey (hk : k.Fits) (s : Bytes) :
    decodeIDBKey (encodeIDBKey k++s) = some (k,s) :=
  decodeIDBKeyFuel_encode k hk _ (by simp; omega) s

/-- Where the decoder succeeds, the copying reader stops at the same place. -/
theorem skipIDBKeyFuel_of_decode (fuel : ℕ) (p : Bytes) (k : IDBKey) (r : Bytes)
    (h : decodeIDBKeyFuel fuel p = some (k,r)) : skipIDBKeyFuel fuel p = some ((),r) := by
  induction fuel generalizing p k r with
  | zero => simp [decodeIDBKeyFuel] at h
  | succ fuel ih =>
    cases p with
    | nil => simp [decodeIDBKeyFuel] at h
    | cons type p =>
      have hih : ∀ p x r, decodeIDBKeyFuel fuel p = some (x,r) →
          ∃ y, skipIDBKeyFuel fuel p = some (y,r) := fun p x r hp => ⟨(),ih p x r hp⟩
      simp only [decodeIDBKeyFuel] at h
      simp only [skipIDBKeyFuel]
      -- The branches are those of the decoder, in the same order.
      split_ifs at h with hn ha hstr hd hnum
      · simp only [Option.some.injEq,Prod.mk.injEq] at h
        simp [hn,h.2]
      · subst ha
        simp only [bind_eq_some_iff,map_eq_some_iff] at h
        obtain ⟨⟨n,q⟩,hl,⟨xs,r'⟩,hm,heq⟩ := h
        obtain ⟨-,rfl⟩ := heq
        obtain ⟨ys,hys⟩ := readMany_follows hih n q xs r' hm
        rw [if_neg (by decide),if_pos rfl,hl,bind_some,hys]
        rfl
      · subst hstr
        simp only [decodeStringWithLength,map_eq_some_iff,bind_eq_some_iff] at h
        obtain ⟨⟨t,r'⟩,⟨⟨n,q⟩,hl,hb⟩,heq⟩ := h
        obtain ⟨-,rfl⟩ := heq
        split_ifs at hb with hs
        simp only [Option.some.injEq,Prod.mk.injEq] at hb
        rw [if_neg (by decide),if_neg (by decide),if_pos rfl,hl,bind_some,if_neg hs,hb.2]
      all_goals
        first | subst hd | subst hnum
        obtain ⟨⟨d,r'⟩,hb,heq⟩ := map_eq_some_iff.mp h
        obtain ⟨-,rfl⟩ := Prod.mk.injEq .. ▸ heq
        obtain ⟨hlong,hr⟩ := drop_of_decodeDouble hb
        rw [if_neg (by decide),if_neg (by decide),if_neg (by decide),if_pos (by decide),
          if_neg hlong,hr]

theorem extractEncodedIDBKey_of_decode {p : Bytes} {r : Bytes} (h : decodeIDBKey p = some (k,r)) :
    extractEncodedIDBKey p = some (p.take (p.length-r.length),r) := by
  rw [extractEncodedIDBKey,skipIDBKeyFuel_of_decode _ p k r h]
  rfl

theorem extractEncodedIDBKey_encodeIDBKey (hk : k.Fits) (s : Bytes) :
    extractEncodedIDBKey (encodeIDBKey k++s) = some (encodeIDBKey k,s) := by
  rw [extractEncodedIDBKey_of_decode (decodeIDBKey_encodeIDBKey hk s)]
  simp

/-- Written keys are read back by both readers up to their end, and on any bytes
the decoder accepts, the extractor stops at the same place. -/
theorem readers_agree :
    (∀ (k : IDBKey) (s : Bytes), k.isValid = true → k.Fits →
      decodeIDBKey (encodeIDBKey k ++ s) = some (k, s) ∧
      extractEncodedIDBKey (encodeIDBKey k ++ s) = some (encodeIDBKey k, s)) ∧
    (∀ (p : Bytes) (k : IDBKey) (r : Bytes), decodeIDBKey p = some (k, r) →
      ∃ e, extractEncodedIDBKey p = some (e, r)) := by
  refine ⟨?_,?_⟩
  · intro k s _ hk
    exact ⟨decodeIDBKey_encodeIDBKey hk s,extractEncodedIDBKey_encodeIDBKey hk s⟩
  · intro p k r h
    exact ⟨_,extractEncodedIDBKey_of_decode h⟩

end

/-- A shift that drops every bit past the width, for concrete runs. -/
@[reducible] def droppedBits : WideShift := ⟨fun _ _ => 0⟩

/-- The array `[1, "a"]`, followed by one more byte. -/
def sampleKey : IDBKey := .array [.number ⟨0x3ff0000000000000⟩, .string [0x61]]

theorem readers_agree_on_sampleKey :
    sampleKey.isValid = true ∧ sampleKey.Fits ∧
      @decodeIDBKey droppedBits (encodeIDBKey sampleKey ++ [7]) = some (sampleKey, [7]) ∧
      ∃ e, @extractEncodedIDBKey droppedBits (encodeIDBKey sampleKey ++ [7]) = some (e, [7]) := by
  have hv : sampleKey.isValid := rfl
  have hf : sampleKey.Fits := by
    simp [sampleKey,IDBKey.Fits,IDBKey.AllFit]
  have hr := ((@readers_agree droppedBits).1 sampleKey [7] hv hf).1
  exact ⟨hv,hf,hr,(@readers_agree droppedBits).2 _ _ _ hr⟩

end QPlusWeb.IDB
