import Mathlib.Data.List.Basic

/-!
# Streams with ancillary data

Every element of a stream may carry further data.  The data that are sent with a part of the stream
are carried by one of its elements.
-/

namespace QPlusWeb.AncillaryData
open List

variable {α β : Type*}

/-- The elements themselves. -/
def payload (l : List (α × List β)) : List α := l.map Prod.fst

/-- What they carry. -/
def carried (l : List (α × List β)) : List β := l.flatMap Prod.snd

/-- The number of elements that carry something. -/
def carriers (l : List (α × List β)) : ℕ := l.countP fun c => !c.2.isEmpty

/-- The element with the given index carries the data. -/
def attach (data : List β) : List α → ℕ → List (α × List β)
  | [], _ => []
  | a :: l, 0 => (a, data) :: l.map fun a => (a, [])
  | a :: l, k + 1 => (a, []) :: attach data l k

section
variable {l l' : List (α × List β)} {data : List β} {k : ℕ}

@[simp] theorem length_payload : (payload l).length = l.length := length_map ..

@[simp] theorem payload_append : payload (l++l') = payload l++payload l' := map_append

@[simp] theorem carried_append : carried (l++l') = carried l++carried l' := flatMap_append

@[simp] theorem carriers_append : carriers (l++l') = carriers l+carriers l' := countP_append

theorem carried_eq_nil_iff : carried l = [] ↔ carriers l = 0 := by
  induction l with
  | nil => exact ⟨fun _ => rfl,fun _ => rfl⟩
  | cons c l ih =>
    rw [carried,flatMap_cons,append_eq_nil_iff,carriers,countP_cons,
      Nat.add_eq_zero_iff,← carriers,← ih,and_comm]
    refine and_congr_right fun _ => ?_
    cases c.2 <;> simp

theorem carried_map_nil (l : List α) : carried (l.map fun a => (a,([] : List β))) = [] := by
  induction l with
  | nil => rfl
  | cons a l ih => exact ih

theorem payload_attach (data : List β) (l : List α) (k : ℕ) : payload (attach data l k) = l := by
  induction l generalizing k with
  | nil => rfl
  | cons a l ih =>
    cases k with
    | zero => rw [attach,payload,map_cons,map_map,Function.comp_def,map_id']
    | succ k => rw [attach,payload,map_cons,← payload,ih]

theorem carried_attach {l : List α} (h : k < l.length) : carried (attach data l k) = data := by
  induction l generalizing k with
  | nil => cases h
  | cons a l ih =>
    cases k with
    | zero => rw [attach,carried,flatMap_cons,← carried,carried_map_nil,append_nil]
    | succ k =>
      rw [attach,carried,flatMap_cons,← carried,ih (Nat.lt_of_succ_lt_succ h)]
      rfl

theorem mem_attach {l : List α} {c : α × List β} (h : c ∈ attach data l k) :
    c.2 = data ∨ c.2 = [] := by
  induction l generalizing k with
  | nil => cases h
  | cons a l ih =>
    cases k with
    | zero =>
      rcases mem_cons.mp h with rfl | h
      · exact .inl rfl
      · obtain ⟨b,-,rfl⟩ := mem_map.mp h
        exact .inr rfl
    | succ k =>
      rcases mem_cons.mp h with rfl | h
      · exact .inr rfl
      · exact ih h

theorem length_carried_le {n : ℕ} (h : ∀ c ∈ l, c.2.length ≤ n) :
    (carried l).length ≤ carriers l*n := by
  induction l with
  | nil => exact Nat.zero_le _
  | cons c l ih =>
    have hl := ih (forall_mem_cons.mp h).2
    have hc := h c mem_cons_self
    rw [carried,flatMap_cons,length_append,← carried,carriers,countP_cons,← carriers,Nat.add_mul]
    cases he : c.2 with
    | nil => simpa using hl
    | cons b data =>
      rw [he] at hc
      simp only [isEmpty_cons,Bool.not_false,if_true,Nat.one_mul]
      omega

end

end QPlusWeb.AncillaryData
