/-!
# Ayubd — compile-time configuration

The constants of `config.h` that the modelled code reads.
-/

namespace Ayubd

/-- `IOV_CHUNK`: the size of one io vector buffer. -/
def iovChunk : Nat := 4096

end Ayubd
