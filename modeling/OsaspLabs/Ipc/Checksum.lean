import OsaspLabs.Lab4.Processes
import OsaspLabs.Lab5.Threads
import OsaspLabs.Lab7.Message

/-! # What the checksum of a message covers

`hash` folds its loop counter, so of a message it depends on the size alone. -/

namespace OsaspLabs

namespace Ipc

/-- `m'` is `m` with another value in one of its payload bytes. -/
def Corrupts (m m' : Msg) : Prop :=
  ∃ (i : ℕ) (hi : i < dataMax) (b : UInt8), i < m.size.toNat ∧ b ≠ m.data[i] ∧
    m' = { m with data := m.data.set i b hi }

theorem hash_congr {m m' : Msg} (h : m.size = m'.size) : hash m = hash m' := by
  unfold hash
  rw [h]

/-- The check passes on every message of the size that was hashed. -/
theorem consumeMsg_of_size {m m' : Msg} (hm : m.hash = hash m) (hhash : m'.hash = m.hash)
    (hsize : m'.size = m.size) : (consumeMsg m').2 = false := by
  have hsame : hash { m' with hash := 0 } = hash m := hash_congr hsize
  simp [consumeMsg, hsame, hhash, hm]

theorem Corrupts.passes {m m' : Msg} (h : Corrupts m m') (hm : m.hash = hash m) :
    (consumeMsg m').2 = false := by
  obtain ⟨i, hi, b, _, _, rfl⟩ := h
  exact consumeMsg_of_size hm rfl rfl

theorem exists_corrupts {m : Msg} (h : 1 ≤ m.size.toNat) : ∃ m', Corrupts m m' :=
  ⟨_, 0, by decide, m.data[0] + 1, h, by simp, rfl⟩

end Ipc

namespace Lab4

theorem produceMsg_hash (rnd : Ipc.Rand) (msg : Ipc.Msg) :
    (produceMsg rnd msg).hash = Ipc.hash (produceMsg rnd msg) :=
  Ipc.hash_congr rfl

end Lab4

namespace Lab5

theorem produceMsg_hash (rnd : Ipc.Rand) (msg : Ipc.Msg) :
    (produceMsg rnd msg).hash = Ipc.hash (produceMsg rnd msg) :=
  Ipc.hash_congr rfl

end Lab5

namespace Lab7

/-- `m'` is `m` with another value in one of its payload bytes. -/
def Corrupts (m m' : Msg) : Prop :=
  ∃ (i : ℕ) (hi : i < dataMax) (b : Int8), (i : ℤ) < m.size.toInt ∧ b ≠ m.data[i] ∧
    m' = { m with data := m.data.set i b hi }

theorem hash_congr {m m' : Msg} (h : m.size = m'.size) : hash m = hash m' := by
  unfold hash
  rw [h]

theorem produce_hash (rnd : Rand) (msg : Msg) :
    (produce rnd msg).hash = hash (produce rnd msg) :=
  hash_congr rfl

theorem consume_of_size {m m' : Msg} (hm : m.hash = hash m) (hhash : m'.hash = m.hash)
    (hsize : m'.size = m.size) : consume m' = false := by
  have hsame : hash m' = hash m := hash_congr hsize
  simp [consume, hsame, hhash, hm]

theorem Corrupts.passes {m m' : Msg} (h : Corrupts m m') (hm : m.hash = hash m) :
    consume m' = false := by
  obtain ⟨i, hi, b, _, _, rfl⟩ := h
  exact consume_of_size hm rfl rfl

theorem exists_corrupts {m : Msg} (h : 1 ≤ m.size.toInt) : ∃ m', Corrupts m m' :=
  ⟨_, 0, by decide, m.data[0] + 1, by simpa using Int.lt_of_lt_of_le (by decide) h, by simp, rfl⟩

end Lab7

/-- In none of the three programs does the consumer report a corrupted byte, whatever the
message, the byte and its new value; and every produced message with a payload has such a
corruption. -/
theorem checksum_passes_corruption (rnd : Ipc.Rand) (msg : Ipc.Msg) (rnd' : Lab7.Rand)
    (msg' : Lab7.Msg) :
    (1 ≤ (Lab4.produceMsg rnd msg).size.toNat →
      (∃ m', Ipc.Corrupts (Lab4.produceMsg rnd msg) m') ∧
      ∀ m', Ipc.Corrupts (Lab4.produceMsg rnd msg) m' → (Ipc.consumeMsg m').2 = false) ∧
    (1 ≤ (Lab5.produceMsg rnd msg).size.toNat →
      (∃ m', Ipc.Corrupts (Lab5.produceMsg rnd msg) m') ∧
      ∀ m', Ipc.Corrupts (Lab5.produceMsg rnd msg) m' → (Ipc.consumeMsg m').2 = false) ∧
    (1 ≤ (Lab7.produce rnd' msg').size.toInt →
      (∃ m', Lab7.Corrupts (Lab7.produce rnd' msg') m') ∧
      ∀ m', Lab7.Corrupts (Lab7.produce rnd' msg') m' → Lab7.consume m' = false) :=
  ⟨fun hsize => ⟨Ipc.exists_corrupts hsize, fun _ h => h.passes (Lab4.produceMsg_hash rnd msg)⟩,
    fun hsize => ⟨Ipc.exists_corrupts hsize, fun _ h => h.passes (Lab5.produceMsg_hash rnd msg)⟩,
    fun hsize =>
      ⟨Lab7.exists_corrupts hsize, fun _ h => h.passes (Lab7.produce_hash rnd' msg')⟩⟩

theorem checksum_passes_corruption_one :
    (∃ m', Ipc.Corrupts (Lab4.produceMsg ⟨1, fun _ => 0⟩ Ipc.Msg.zero) m') ∧
      (∃ m', Ipc.Corrupts (Lab5.produceMsg ⟨1, fun _ => 0⟩ Ipc.Msg.zero) m') ∧
      ∃ m', Lab7.Corrupts (Lab7.produce ⟨1, fun _ => 0⟩ Lab7.Msg.zero) m' := by
  obtain ⟨h₄, h₅, h₇⟩ :=
    checksum_passes_corruption ⟨1, fun _ => 0⟩ Ipc.Msg.zero ⟨1, fun _ => 0⟩ Lab7.Msg.zero
  exact ⟨(h₄ (by decide)).1, (h₅ (by decide)).1, (h₇ (by decide)).1⟩

/-- The one payload byte 0 of a message arrives as 1. -/
theorem corruption_unreported :
    ¬ ∀ (rnd : Ipc.Rand) (msg m' : Ipc.Msg), 1 ≤ (Lab4.produceMsg rnd msg).size.toNat →
      Ipc.Corrupts (Lab4.produceMsg rnd msg) m' → (Ipc.consumeMsg m').2 = true := by
  intro hall
  have hcorrupt : Ipc.Corrupts (Lab4.produceMsg ⟨1, fun _ => 0⟩ Ipc.Msg.zero)
      { Lab4.produceMsg ⟨1, fun _ => 0⟩ Ipc.Msg.zero with
        data := (Lab4.produceMsg ⟨1, fun _ => 0⟩ Ipc.Msg.zero).data.set 0 1 (by decide) } :=
    ⟨0, by decide, 1, by decide, by simp [Lab4.produceMsg, Ipc.fillMsg], rfl⟩
  have hpasses := hcorrupt.passes (Lab4.produceMsg_hash _ _)
  exact absurd (hpasses.symm.trans (hall _ _ _ (by decide) hcorrupt)) (by decide)

end OsaspLabs
