import Mathlib
import ToneWatch.Json.Fields
import ToneWatch.Proofs.Json.RoundTrip

namespace ToneWatch.Json

theorem mapM_map_some {α β γ : Type} {read : β → Option γ} {write : α → β} {f : α → γ} {xs : List α}
    (h : ∀ x ∈ xs, read (write x) = some (f x)) : (xs.map write).mapM read = some (xs.map f) := by
  induction xs with
  | nil => rfl
  | cons x xs ih =>
    rw [List.map_cons, List.mapM_cons, h x (by simp), ih fun y hy => h y (List.mem_cons_of_mem _ hy)]
    rfl

theorem filter_name {members : List (String × Json)} (hn : (members.map Prod.fst).Nodup)
    {m : String × Json} (hm : m ∈ members) :
    (members.map fun m => ((some m.1 : Literal), m.2)).filter (fun l => l.1 = some m.1) =
      [(some m.1, m.2)] := by
  induction members with
  | nil => cases hm
  | cons n members ih =>
    obtain ⟨hnotin, hn⟩ := List.nodup_cons.mp hn
    rw [List.map_cons, List.filter_cons]
    obtain rfl | hm := List.mem_cons.mp hm
    · have hrest : (members.map fun l => ((some l.1 : Literal), l.2)).filter
          (fun l => l.1 = some m.1) = [] := by
        rw [List.filter_eq_nil_iff]
        rintro l hl heq
        obtain ⟨k, hk, rfl⟩ := List.mem_map.mp hl
        have hname : k.1 = m.1 := by simpa using heq
        exact hnotin (hname ▸ List.mem_map_of_mem hk)
      rw [if_pos (by simp), hrest]
    · have hne : n.1 ≠ m.1 := fun heq => hnotin (heq ▸ List.mem_map_of_mem hm)
      rw [if_neg (by simpa using hne), ih hn hm]

theorem fields?_ofMembers {members : List (String × Json)} (hn : (members.map Prod.fst).Nodup) :
    fields? (members.map Prod.fst) (ofMembers members) = some (members.map fun m => some m.2) := by
  rw [ofMembers, fields?, if_neg (by simp)]
  refine mapM_map_some fun m hm => ?_
  rw [filter_name hn hm]

theorem plain_ofInt (n : Int) : (Numeral.ofInt n).Plain := by
  refine ⟨Digit.ofNat_ne_nil _, fun hz => ?_, nofun⟩
  obtain h | h := eq_or_ne n.natAbs 0
  · simp [Numeral.ofInt, h, Digit.ofNat]
  · exact absurd hz (Digit.head_ofNat h)

theorem toInt?_ofInt (n : Int) : (Numeral.ofInt n).toInt? = some n := by
  rw [Numeral.toInt?, Numeral.ofInt]
  simp only [Digit.toNat_ofNat, Numeral.isWhole]
  obtain h | h := lt_or_ge n 0
  · simp [h, h.ne, abs_of_neg h]
  · simp [not_lt.mpr h, abs_of_nonneg h]

theorem int?_ofInt {lo hi n : Int} (hlo : lo ≤ n) (hhi : n < hi) : int? lo hi (ofInt n) = some n := by
  rw [ofInt, int?, toInt?_ofInt]
  simp [hlo, hhi]

@[simp] theorem uint8?_ofNat (w : UInt8) : uint8? (ofNat w.toNat) = some w := by
  have hw := w.toNat_lt
  rw [uint8?, ofNat, int?_ofInt (by omega) (by omega)]
  simp

@[simp] theorem uint16?_ofNat (w : UInt16) : uint16? (ofNat w.toNat) = some w := by
  have hw := w.toNat_lt
  rw [uint16?, ofNat, int?_ofInt (by omega) (by omega)]
  simp

@[simp] theorem uint32?_ofNat (w : UInt32) : uint32? (ofNat w.toNat) = some w := by
  have hw := w.toNat_lt
  rw [uint32?, ofNat, int?_ofInt (by omega) (by omega)]
  simp

@[simp] theorem uint64?_ofNat (w : UInt64) : uint64? (ofNat w.toNat) = some w := by
  have hw := w.toNat_lt
  rw [uint64?, ofNat, int?_ofInt (by omega) (by omega)]
  simp

@[simp] theorem int32?_ofInt (i : Int32) : int32? (ofInt i.toInt) = some i := by
  have hlo := i.le_toInt
  have hhi := i.toInt_lt
  rw [int32?, int?_ofInt (by omega) (by omega)]
  simp

@[simp] theorem bool?_bool (b : Bool) : bool? (.bool b) = some b := rfl

@[simp] theorem string?_ofString (s : String) : string? (ofString s) = some s := rfl

theorem list?_map {α : Type} {read : Json → Option α} {write : α → Json}
    (h : ∀ x, read (write x) = some x) (xs : List α) : list? read (.array (xs.map write)) = some xs := by
  rw [list?, mapM_map_some (f := id) fun x _ => h x, List.map_id]

theorem written_ofInt (n : Int) : Written (ofInt n) := .number (plain_ofInt n)

theorem written_ofNat (n : Nat) : Written (ofNat n) := written_ofInt n

theorem written_ofString (s : String) : Written (ofString s) := .string s

theorem written_map {α : Type} {write : α → Json} (h : ∀ x, Written (write x)) (xs : List α) :
    Written (.array (xs.map write)) := by
  refine .array fun v hv => ?_
  obtain ⟨x, -, rfl⟩ := List.mem_map.mp hv
  exact h x

theorem written_ofMembers {members : List (String × Json)} (h : ∀ m ∈ members, Written m.2) :
    Written (ofMembers members) := by
  refine .object (fun m hm => ?_) fun m hm => ?_
  · obtain ⟨n, -, rfl⟩ := List.mem_map.mp hm
    exact ⟨n.1, rfl⟩
  · obtain ⟨n, hn, rfl⟩ := List.mem_map.mp hm
    exact h n hn

end ToneWatch.Json
