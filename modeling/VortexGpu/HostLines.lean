import VortexGpu.HostDevice

/-!
# The lines of the host, decoded

Every line the runtime puts into the ring holds one command, and the decoder of the command
processor finds that command and nothing behind it.
-/

namespace VortexGpu.Api
open Word ByteMem Cp UInt8

namespace Device
variable (opcode flags arg0 arg1 arg2 : ℕ)

theorem cmdLine_behind {i : ℕ} (hi : 28 ≤ i) : cmdLine opcode flags arg0 arg1 arg2 i = 0 := by
  have h20 : 20 + (bytesLE 8 arg2).length ≤ i := by rw [length_bytesLE]; omega
  have h12 : 12 + (bytesLE 8 arg1).length ≤ i := by rw [length_bytesLE]; omega
  have h4 : 4 + (bytesLE 8 arg0).length ≤ i := by rw [length_bytesLE]; omega
  rw [cmdLine, writeBytes_of_not_mem (.inr h20), writeBytes_of_not_mem (.inr h12),
    writeBytes_of_not_mem (.inr h4), lineHeader, writeBytes_of_not_mem (.inr (by simp; omega))]

theorem cmdLine_header {i : ℕ} (hi : i < 4) :
    cmdLine opcode flags arg0 arg1 arg2 i = [ofNat opcode, ofNat flags].getD i 0 := by
  rw [cmdLine, writeBytes_of_not_mem (.inl (by omega)), writeBytes_of_not_mem (.inl (by omega)),
    writeBytes_of_not_mem (.inl hi), lineHeader]
  by_cases h2 : i < 2
  · have hw : writeBytes (fun _ => 0) 0 [ofNat opcode, ofNat flags] (0 + i) =
        [ofNat opcode, ofNat flags].getD i 0 := writeBytes_of_lt h2
    rwa [zero_add] at hw
  · rw [writeBytes_of_not_mem (.inr (by simp; omega))]
    exact (List.getD_eq_default _ _ (Nat.le_of_not_lt h2)).symm

theorem cmdLine_arg0 {i : ℕ} (hi : i < 8) :
    cmdLine opcode flags arg0 arg1 arg2 (4 + i) = (bytesLE 8 arg0).getD i 0 := by
  rw [cmdLine, writeBytes_of_not_mem (.inl (by omega)), writeBytes_of_not_mem (.inl (by omega)),
    writeBytes_of_lt (by rwa [length_bytesLE])]

theorem cmdLine_arg1 {i : ℕ} (hi : i < 8) :
    cmdLine opcode flags arg0 arg1 arg2 (12 + i) = (bytesLE 8 arg1).getD i 0 := by
  rw [cmdLine, writeBytes_of_not_mem (.inl (by omega)), writeBytes_of_lt (by rwa [length_bytesLE])]

theorem cmdLine_arg2 {i : ℕ} (hi : i < 8) :
    cmdLine opcode flags arg0 arg1 arg2 (20 + i) = (bytesLE 8 arg2).getD i 0 := by
  rw [cmdLine, writeBytes_of_lt (by rwa [length_bytesLE])]

variable {opcode flags}

theorem decode_cmdLine (hop : opcode < 256) (hf : flags < 256) :
    decodeCmdBytes (cmdLine opcode flags arg0 arg1 arg2) 0 =
      ⟨opcode, flags, 0, arg0 % 2 ^ 64, arg1 % 2 ^ 64, arg2 % 2 ^ 64⟩ := by
  have h0 : (cmdLine opcode flags arg0 arg1 arg2 0).toNat = opcode := by
    rw [cmdLine_header opcode flags arg0 arg1 arg2 (by omega)]
    simpa using hop
  have h1 : (cmdLine opcode flags arg0 arg1 arg2 1).toNat = flags := by
    rw [cmdLine_header opcode flags arg0 arg1 arg2 (by omega)]
    simpa using hf
  have h2 : readLE (cmdLine opcode flags arg0 arg1 arg2) 2 2 = 0 := by
    apply readLE_zero
    intro i hi
    rw [cmdLine_header opcode flags arg0 arg1 arg2 (by omega)]
    exact List.getD_eq_default _ _ (Nat.le_add_right 2 i)
  have ha0 := readLE_of_bytes (fun i hi => cmdLine_arg0 opcode flags arg0 arg1 arg2 hi)
  have ha1 := readLE_of_bytes (fun i hi => cmdLine_arg1 opcode flags arg0 arg1 arg2 hi)
  have ha2 := readLE_of_bytes (fun i hi => cmdLine_arg2 opcode flags arg0 arg1 arg2 hi)
  have hpow : (256 : ℕ) ^ 8 = 2 ^ 64 := by norm_num
  rw [hpow] at ha0 ha1 ha2
  simp [decodeCmdBytes, h0, h1, h2, ha0, ha1, ha2]

theorem lineCmds_cmdLine (hop : opcode < 256) (hf : flags < 256) (hne : opcode ≠ 0)
    (hpad : isPadding (cmdLine opcode flags arg0 arg1 arg2) (Op.ofByte opcode).size = true) :
    lineCmds (cmdLine opcode flags arg0 arg1 arg2) =
      [⟨opcode, flags, 0, arg0 % 2 ^ 64, arg1 % 2 ^ 64, arg2 % 2 ^ 64⟩] := by
  have hdec := decode_cmdLine arg0 arg1 arg2 hop hf
  have hsize : (Op.ofByte opcode).size ≤ 28 := by cases Op.ofByte opcode <;> decide
  have hfirst : isPadding (cmdLine opcode flags arg0 arg1 arg2) 0 = false := by
    have h0 := congrArg Cmd.opcode hdec
    simp only [decodeCmdBytes] at h0
    simp only [isPadding, Bool.and_eq_false_iff, beq_eq_false_iff_ne]
    left
    intro hz
    rw [hz] at h0
    exact hne h0.symm
  have hop' : (decodeCmdBytes (cmdLine opcode flags arg0 arg1 arg2) 0).op = Op.ofByte opcode := by
    rw [hdec]
    rfl
  have hcount : unpackCl (cmdLine opcode flags arg0 arg1 arg2) = 1 := by
    rw [unpackCl, maxCmdsPerCl, unpackFrom, if_neg (by decide), hfirst, if_neg (by simp)]
    dsimp only
    rw [hop', zero_add, if_neg (by unfold clBytes; omega), unpackFrom,
      if_neg (by unfold clBytes; omega), hpad, if_pos rfl]
  rw [lineCmds, hcount]
  simp [slotCmd, slotOffset, hdec]

end Device

end VortexGpu.Api
