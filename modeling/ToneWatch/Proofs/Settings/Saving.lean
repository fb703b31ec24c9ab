import Mathlib
import ToneWatch.Settings.Store
import ToneWatch.Proofs.Json.Fields

namespace ToneWatch

theorem toList_loop (bytes : ByteArray) (i : Nat) (latest : List UInt8) :
    ByteArray.toList.loop bytes i latest = latest.reverse ++ bytes.data.toList.drop i := by
  induction hk : bytes.size - i generalizing i latest with
  | zero =>
    rw [ByteArray.toList.loop, if_neg (by omega), List.drop_eq_nil_of_le, List.append_nil]
    rw [Array.length_toList]
    exact Nat.le_of_sub_eq_zero hk
  | succ k ih =>
    have hi : i < bytes.size := by omega
    have hget : bytes.data.toList.drop i = bytes.get! i :: bytes.data.toList.drop (i + 1) := by
      have hread : bytes.get! i = bytes.data[i] := getElem!_pos bytes.data i hi
      rw [List.drop_eq_getElem_cons (by simpa using hi), hread, Array.getElem_toList]
    rw [ByteArray.toList.loop, if_pos hi, ih (i + 1) _ (by omega), hget, List.reverse_cons,
      List.append_assoc]
    rfl

theorem toByteArray_toList (bytes : ByteArray) : bytes.toList.toByteArray = bytes := by
  rw [ByteArray.toList, toList_loop, List.reverse_nil, List.nil_append, List.drop_zero]
  apply ByteArray.ext
  simp

theorem readText_toUTF8 (text : String) : readText (some text.toUTF8.toList) = .ok text := by
  have hread : String.fromUTF8? text.toUTF8 = some text := dif_pos text.isValidUTF8
  rw [readText, Option.bind_some, toByteArray_toList, hread]

variable {α : Type} {ofJson? : Json → Option α} {v : Json}

theorem readRecord_pretty (hv : v.Written) :
    readRecord ofJson? v.pretty = match ofJson? v with
      | none => .error .malformed
      | some a => .ok a := by
  rw [readRecord, Json.parse?_pretty hv]
  rfl

/-- A file that holds a record is loaded exactly if the record is not refused. -/
theorem loadRecord_of_read {validate : α → Except SettingsError Unit} {file : Option (List UInt8)} {a : α}
    (hread : readText file >>= readRecord ofJson? = .ok a) :
    loadRecord ofJson? validate file = match validate a with
      | .ok () => .ok a
      | .error e => .error (.refused e) := by
  have hload : loadRecord ofJson? validate file = (readText file >>= readRecord ofJson?) >>= fun a =>
      match validate a with
      | .ok () => .ok a
      | .error e => .error (.refused e) := by
    rw [loadRecord]
    cases readText file <;> rfl
  rw [hload, hread]
  rfl

theorem loadRecord_pretty {validate : α → Except SettingsError Unit} (hv : v.Written) :
    loadRecord ofJson? validate (some v.pretty.toUTF8.toList) = match ofJson? v with
      | none => .error .malformed
      | some a => match validate a with
        | .ok () => .ok a
        | .error e => .error (.refused e) := by
  rw [loadRecord, readText_toUTF8]
  simp only [bind, Except.bind, readRecord_pretty hv]
  cases ofJson? v <;> rfl

end ToneWatch
