import CoinScript.Script.Reader

/-!
# Validating scripts

A script is valid under rules when it is not too large and can be read to its end
under them. The size is asked first, and a script that is too large is not read.
-/

namespace CoinScript.Script

/-- Hold a script to the rules. -/
def check (rules : Rules) (script : Script) : Logged ScriptEvent (Except ScriptError Unit) :=
  if rules.maxScriptSize < script.size then ⟨.error .scriptTooLarge, []⟩
  else
    let transcript := script.read rules
    ⟨transcript.chunks.map fun _ => (), transcript.log⟩

end CoinScript.Script
