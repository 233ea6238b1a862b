import NyanyaAgent.Redaction.Credentials
import NyanyaAgent.Redaction.Stable

/-!
# What redaction leaves of secrets

Secret keys lose their values and a redacted value stays as it is. The credentials in a text are
replaced where no quote closes their word, where no word begins in what another one hides with
its own credential behind that, and where the pattern takes the whole of what the text gives as the
value.
-/
namespace NyanyaAgent.Safety
open NyanyaAgent.Redaction

section Examples

end Examples
end NyanyaAgent.Safety
